import Codegen.Proofs.Assembly.Amd64
import Codegen.Proofs.Selection.Faithful
import Codegen.Target.Amd64

/-!
# The templates of the amd64 target

Every template of the target is faithful to the instructions of the machine (`values_faithful`,
`actions_faithful`). For scratch there are `%rax` and `%rdx`, which a division works on, and `%rcx`,
which holds the count of a shift.
-/

namespace Codegen.Target.Amd64

open Semantics Assembly Assembly.Amd64 TemplateSource List

variable {reg? : String → Option Reg} {scratch : List String}

/-! ### Operations on the output register -/

theorem isName_of_mem_arithNames {p : String × Arith} (h : p ∈ arithNames) : Part.IsName p.1 := by
  revert p
  simp [arithNames, Part.IsName, Skeleton.mark]

theorem operands?_of_mem_arithNames {p : String × Arith} (h : p ∈ arithNames) {ts : List Token}
    {src dst : Amd64.Operand} (hts : pair? ts = some (src, dst)) :
    p.2.takes src = true → operands? p.1 ts = some (.arith p.2 src dst) := by
  revert p
  simp +contextual [operands?, arithNames, List.lookup_cons, hts]

theorem run_changed {Mem : Type} {I : Interp Mem} {m : Machine Mem} {A : Arith} {src : Amd64.Operand}
    {a d : Option Reg} {v : Int64} (hv : Amd64.value I reg? (m.setReg d (m.regs a)) src = some v) :
    amd64.run I reg? [Asm.mov (.reg a) (.reg d), Asm.arith A src (.reg d)] m =
      some (none, { (m.setReg d (m.regs a)).setReg d (A.apply (m.regs a) v) with flags := none }) := by
  have hmov : amd64.exec I reg? (Asm.mov (.reg a) (.reg d)) m =
      some (none, m.setReg d (m.regs a)) := rfl
  rw [Isa.run_cons_of_next hmov, Isa.run_singleton]
  exact exec_arith (congrArg some (m.regs_setReg_self d _)) hv rfl

/-- A copy of the first operand is changed by an operation with the second one. -/
theorem computes_changed {o : Op} {A : Arith} {name : String} {cs : List Char} {q : Expr}
    (hname : (name, A) ∈ arithNames) (hdoes : Does A.apply o)
    (hq : ∀ (x : Node) (a d : Reg), Leaf.ForAll (fun r => r ≠ some d) q.leafKinds fun leaves =>
      ∃ ss ts src,
        Part.symbols? reg? (.temp :: q.leafKinds) (cs.map Skeleton.mark) =
          some (.chr ' ' :: ss) ∧
        Selection.tokens? x (.temp (some a) :: leaves) (some d) ss = some ts ∧
        pair? ts = some (src, .reg (some d)) ∧ A.takes src = true ∧
        ∀ {Mem : Type} (I : Interp Mem) (m : Machine Mem) (v : Int64),
          Amd64.value I reg? (m.setReg (some d) v) src =
            some (q.denote I m.mem (leaves.map (Leaf.value I m.store))).1) :
    Computes amd64 reg? scratch
      (TemplateSource.value (bin o reg q) [mv "movq ‹0›, ‹out›", op (name ++ String.ofList cs)])
      (bin o reg q) := by
  refine ⟨by simp [TemplateSource.value, mv, op], fun x d leaves _ h => ?_⟩
  obtain ⟨a, leaves, rfl, -, h⟩ := Leaf.exists_temp h
  obtain ⟨ss, ts, src, hss, hts, hpair, htakes, hv⟩ :=
    (hq x a d).of_settled (h.imp fun k l hkl => hkl.mono fun _ hr => hr.1)
  refine ⟨_, readAll_cons rfl rfl rfl rfl (readAll_cons_named rfl (isName_of_mem_arithNames hname)
    hss hts (operands?_of_mem_arithNames hname hpair htakes) rfl), fun I m hd => ?_⟩
  obtain ⟨w, hw, happ⟩ := hd.2.2.exists_eval I
  refine ⟨_, run_changed (hv I m _), ?_, rfl, fun r hr _ => ?_⟩
  · rw [← hdoes _ _ _ hw] at happ
    exact (Function.update_self ..).trans happ.symm
  · exact ((m.setReg _ _).regs_setReg_of_ne hr _).trans (m.regs_setReg_of_ne hr _)

theorem computes_changed_num {o : Op} {A : Arith} {name : String} (hname : (name, A) ∈ arithNames)
    (hdoes : Does A.apply o) : Computes amd64 reg? scratch (TemplateSource.value (bin o reg num)
      [mv "movq ‹0›, ‹out›", op (name ++ " $‹1›, ‹+out›")]) (bin o reg num) :=
  computes_changed hname hdoes fun x a d v =>
    ⟨_, _, .imm v, rfl, rfl, rfl, by cases A <;> rfl, fun I m w => rfl⟩

theorem exists_of_mem_arith {a : Op × String} (ha : a ∈ arith) : ∃ A : Arith,
    (a.2, A) ∈ arithNames ∧ Does A.apply a.1 ∧ ∀ src, src ≠ .count → A.takes src = true := by
  have htakes : ∀ A ∈ [Arith.add, .sub, .imul, .and, .or, .xor], ∀ src, src ≠ .count →
      A.takes src = true := by
    simp [Arith.takes]
  simp only [arith, mem_cons, not_mem_nil, or_false] at ha
  rcases ha with rfl | rfl | rfl | rfl | rfl | rfl
  · exact ⟨.add, by simp [arithNames], fun x y w h => Option.some.inj h, htakes _ (by simp)⟩
  · exact ⟨.sub, by simp [arithNames], fun x y w h => Option.some.inj h, htakes _ (by simp)⟩
  · exact ⟨.imul, by simp [arithNames], fun x y w h => Option.some.inj h, htakes _ (by simp)⟩
  · exact ⟨.and, by simp [arithNames], fun x y w h => Option.some.inj h, htakes _ (by simp)⟩
  · exact ⟨.or, by simp [arithNames], fun x y w h => Option.some.inj h, htakes _ (by simp)⟩
  · exact ⟨.xor, by simp [arithNames], fun x y w h => Option.some.inj h, htakes _ (by simp)⟩

theorem arithTemplates_faithful {a : Op × String} (ha : a ∈ arith) :
    ∀ src ∈ arithTemplates a, src.Faithful amd64 reg? scratch := by
  obtain ⟨A, hname, hdoes, htakes⟩ := exists_of_mem_arith ha
  simp only [arithTemplates, forall_mem_cons]
  refine ⟨computes_changed_num hname hdoes, ?_, ?_, ?_, forall_mem_nil _⟩
  · refine computes_changed hname hdoes fun x a d b hb => ?_
    refine ⟨_, _, .reg (some b), rfl, rfl, rfl, htakes _ (by simp), fun I m w => ?_⟩
    exact congrArg some (m.regs_setReg_of_ne hb w)
  · refine computes_changed hname hdoes fun x a d b hb => ?_
    refine ⟨_, _, .mem (some b) 0, rfl, rfl, rfl, htakes _ (by simp), fun I m w => ?_⟩
    show some (I.load m.mem ((m.setReg (some d) w).regs (some b) + 0)) = _
    rw [m.regs_setReg_of_ne hb, Int64.add_zero]
    rfl
  · refine computes_changed hname hdoes fun x a d b hb v => ?_
    refine ⟨_, _, .mem (some b) v, rfl, rfl, rfl, htakes _ (by simp), fun I m w => ?_⟩
    show some (I.load m.mem ((m.setReg (some d) w).regs (some b) + v)) = _
    rw [m.regs_setReg_of_ne hb]
    rfl

/-! ### Registers with a fixed part -/

/-- The registers that templates name. -/
def scratchNames : List String := ["%rax", "%rcx", "%rdx"]

/-- The machine has the registers that templates name. -/
structure HasScratch (reg? : String → Option Reg) (rax rcx rdx : Reg) : Prop where
  reg_rax : reg? "%rax" = some rax
  reg_rcx : reg? "%rcx" = some rcx
  reg_rdx : reg? "%rdx" = some rdx
  rax_ne_rdx : rax ≠ rdx

variable {rax rcx rdx : Reg}

namespace HasScratch

variable (hs : HasScratch reg? rax rcx rdx) {r : Option Reg}
include hs

theorem ne_rax (hr : ¬ IsScratch reg? scratchNames r) : r ≠ some rax :=
  fun h => hr ⟨"%rax", by simp [scratchNames], h ▸ hs.reg_rax⟩

theorem ne_rcx (hr : ¬ IsScratch reg? scratchNames r) : r ≠ some rcx :=
  fun h => hr ⟨"%rcx", by simp [scratchNames], h ▸ hs.reg_rcx⟩

theorem ne_rdx (hr : ¬ IsScratch reg? scratchNames r) : r ≠ some rdx :=
  fun h => hr ⟨"%rdx", by simp [scratchNames], h ▸ hs.reg_rdx⟩

theorem symbols?_in_rax (kinds : List LeafKind) :
    Part.symbols? reg? kinds (['m', 'o', 'v', 'q', ' ', '‹', 'i', 'n', ':', '%', 'r', 'a', 'x', '›',
      ',', ' ', '‹', 'o', 'u', 't', '›'].map Skeleton.mark) =
      some (['m', 'o', 'v', 'q', ' '].map .chr ++ .hole (.fixed rax .read) ::
        ([',', ' '].map .chr ++ [.hole (.out .write)])) :=
  Part.symbols?_two ['m', 'o', 'v', 'q', ' '] ['i', 'n', ':', '%', 'r', 'a', 'x'] [',', ' ']
    ['o', 'u', 't'] rfl (by simp) (by simp) (Part.fixedReg_of_eq hs.reg_rax .read) rfl

end HasScratch

theorem exists_of_mem_shifts {a : Op × String} (ha : a ∈ shifts) : ∃ A : Arith,
    (a.2, A) ∈ arithNames ∧ A.takes .count = true ∧ Does A.apply a.1 ∧
      Does (fun x y => A.apply x (y &&& 255)) a.1 := by
  simp only [shifts, mem_cons, not_mem_nil, or_false] at ha
  rcases ha with rfl | rfl | rfl
  · exact ⟨.sal, by simp [arithNames], rfl, does_shift (fun _ _ => rfl) fun _ _ => rfl⟩
  · exact ⟨.shr, by simp [arithNames], rfl, does_shift (fun _ _ => rfl) fun _ _ => rfl⟩
  · exact ⟨.sar, by simp [arithNames], rfl, does_shift (fun _ _ => rfl) fun _ _ => rfl⟩

section

variable (hs : HasScratch reg? rax rcx rdx)
include hs

/-- A count goes through `%rcx`, of which a shift sees the low byte. -/
theorem computes_shift {o : Op} {A : Arith} {name : String}
    (hname : (name, A) ∈ arithNames) (htakes : A.takes .count = true)
    (hdoes : Does (fun x y => A.apply x (y &&& 255)) o) :
    Computes amd64 reg? scratchNames (TemplateSource.value (bin o reg reg)
      [mv "movq ‹1›, ‹out:%rcx›", mv "movq ‹0›, ‹out›",
        { op (name ++ " %cl, ‹+out›") with uses := ["%rcx"] }]) (bin o reg reg) := by
  refine ⟨by simp [TemplateSource.value, mv, op], fun x d leaves hd h => ?_⟩
  obtain ⟨a, _, rfl, ha, h⟩ := Leaf.exists_temp h
  obtain ⟨b, _, rfl, hb, ⟨⟩⟩ := Leaf.exists_temp h
  have hread : operands? name
      [.chr '%', .chr 'c', .chr 'l', .chr ',', .chr ' ', .reg (some d)] =
        some (Asm.arith A .count (.reg (some d))) := operands?_of_mem_arithNames hname rfl htakes
  have hcount : Part.symbols? reg? [.temp, .temp] _ = some _ :=
    Part.symbols?_two ['m', 'o', 'v', 'q', ' '] ['1'] [',', ' ']
      ['o', 'u', 't', ':', '%', 'r', 'c', 'x'] rfl (by simp) (by simp) rfl
      (Part.fixedReg_of_eq hs.reg_rcx .write)
  refine ⟨_, readAll_cons rfl hcount rfl rfl (readAll_cons rfl rfl rfl rfl
    (readAll_cons_named rfl (isName_of_mem_arithNames hname) rfl rfl hread rfl)),
    fun I m hdef => ?_⟩
  obtain ⟨w, hw, happ⟩ := hdef.2.2.exists_eval I
  let m₁ := m.setReg (some rcx) (m.regs (some b))
  have ha₁ : m₁.regs (some a) = m.regs (some a) := m.regs_setReg_of_ne (hs.ne_rcx ha.2) _
  have hcount : Amd64.value I reg? (m₁.setReg (some d) (m₁.regs (some a))) .count =
      some (m.regs (some b) &&& 255) := by
    have hne : some rcx ≠ some d := fun h => hs.ne_rcx hd h.symm
    show some ((m₁.setReg (some d) (m₁.regs (some a))).regs (reg? "%rcx") &&& 255) = _
    rw [hs.reg_rcx, m₁.regs_setReg_of_ne hne, m.regs_setReg_self]
  have hmov : amd64.exec I reg? (Asm.mov (.reg (some b)) (.reg (some rcx))) m = some (none, m₁) := rfl
  refine ⟨_, (Isa.run_cons_of_next hmov).trans (run_changed hcount), ?_, rfl,
    fun r hr hscratch => ?_⟩
  · rw [← hdoes _ _ _ hw] at happ
    exact (Function.update_self ..).trans (ha₁ ▸ happ.symm)
  · calc (((m₁.setReg _ _).setReg (some d) _).regs r)
        = m₁.regs r :=
          ((m₁.setReg _ _).regs_setReg_of_ne hr _).trans (m₁.regs_setReg_of_ne hr _)
      _ = m.regs r := m.regs_setReg_of_ne (hs.ne_rcx hscratch) _

theorem shiftTemplates_faithful {a : Op × String}
    (ha : a ∈ shifts) : ∀ src ∈ shiftTemplates a, src.Faithful amd64 reg? scratchNames := by
  obtain ⟨A, hname, htakes, hdoes, hcount⟩ := exists_of_mem_shifts ha
  simp only [shiftTemplates, forall_mem_cons]
  exact ⟨computes_changed_num hname hdoes, computes_shift hs hname htakes hcount, forall_mem_nil _⟩

/-- A division works on `%rax`, with the sign in `%rdx`. -/
theorem computes_div :
    Computes amd64 reg? scratchNames (TemplateSource.value (bin .div reg reg)
      [mv "movq ‹0›, ‹out:%rax›",
        { op "cqto" with uses := ["%rax"], defs := ["%rdx"] },
        { op "idivq ‹1›" with uses := ["%rax", "%rdx"], defs := ["%rax", "%rdx"] },
        mv "movq ‹in:%rax›, ‹out›"]) (bin .div reg reg) := by
  refine ⟨by simp [TemplateSource.value, mv, op], fun x d leaves hd h => ?_⟩
  obtain ⟨a, _, rfl, ha, h⟩ := Leaf.exists_temp h
  obtain ⟨b, _, rfl, hb, ⟨⟩⟩ := Leaf.exists_temp h
  have hfirst : Part.symbols? reg? [.temp, .temp] _ = some _ :=
    Part.symbols?_two ['m', 'o', 'v', 'q', ' '] ['0'] [',', ' ']
      ['o', 'u', 't', ':', '%', 'r', 'a', 'x'] rfl (by simp) (by simp) rfl
      (Part.fixedReg_of_eq hs.reg_rax .write)
  refine ⟨_, readAll_cons rfl hfirst rfl rfl (readAll_cons rfl rfl rfl rfl
    (readAll_cons rfl rfl rfl rfl (readAll_cons rfl (hs.symbols?_in_rax _) rfl rfl rfl))),
    fun I m hdef => ?_⟩
  obtain ⟨w, hw, happ⟩ := hdef.2.2.exists_eval I
  have hb0 : m.regs (some b) ≠ 0 := fun h0 => hdef.2.2.1 (if_pos h0)
  have hq : m.regs (some a) / m.regs (some b) = w := Option.some.inj ((if_neg hb0).symm.trans hw)
  let x := m.regs (some a)
  let m₁ := m.setReg (some rax) x
  let m₂ := m₁.setReg (some rdx) (if x < 0 then -1 else 0)
  have hne : some rax ≠ some rdx := fun h => hs.rax_ne_rdx (Option.some.inj h)
  have hcqto : amd64.exec I reg? Asm.cqto m₁ = some (none, m₂) := by
    show some (none, m₁.setReg (reg? "%rdx") (if m₁.regs (reg? "%rax") < 0 then -1 else 0)) = _
    rw [hs.reg_rax, hs.reg_rdx, m.regs_setReg_self]
  have hkeep : ∀ r, r ≠ some rax → r ≠ some rdx → m₂.regs r = m.regs r := fun r h1 h2 =>
    (m₁.regs_setReg_of_ne h2 _).trans (m.regs_setReg_of_ne h1 _)
  have hidiv : amd64.exec I reg? (Asm.idiv (.reg (some b))) m₂ = some (none,
      { (m₂.setReg (some rax) (x / m.regs (some b))).setReg (some rdx)
          (.ofInt (x.toInt.tmod (m.regs (some b)).toInt)) with flags := none }) := by
    rw [← hs.reg_rax, ← hs.reg_rdx]
    refine exec_idiv (congrArg some (hkeep _ (hs.ne_rax hb.2) (hs.ne_rdx hb.2))) ?_
    rw [hs.reg_rax, hs.reg_rdx, m₁.regs_setReg_self, m₁.regs_setReg_of_ne hne, m.regs_setReg_self]
    exact divide_sign hb0 fun h => hdef.2.2.2 ⟨rfl, h⟩
  have hmov : amd64.exec I reg? (Asm.mov (.reg (some a)) (.reg (some rax))) m = some (none, m₁) := rfl
  refine ⟨_, (Isa.run_cons_of_next hmov).trans ((Isa.run_cons_of_next hcqto).trans
    ((Isa.run_cons_of_next hidiv).trans (Isa.run_cons_of_next rfl))), ?_, rfl,
    fun r hr hscratch => ?_⟩
  · rw [← hq] at happ
    refine (Machine.regs_setReg_self ..).trans (Eq.trans ?_ happ.symm)
    exact ((m₂.setReg _ _).regs_setReg_of_ne hne _).trans (m₂.regs_setReg_self _ _)
  · have h1 := hs.ne_rax hscratch
    have h2 := hs.ne_rdx hscratch
    refine (Machine.regs_setReg_of_ne _ hr _).trans (Eq.trans ?_ (hkeep r h1 h2))
    exact ((m₂.setReg _ _).regs_setReg_of_ne h2 _).trans (m₂.regs_setReg_of_ne h1 _)

theorem values_faithful : ∀ src ∈ values, src.Faithful amd64 reg? scratchNames := by
  simp only [values, forall_mem_append, forall_mem_cons, forall_mem_flatMap]
  refine ⟨⟨⟨⟨?num, ?wideNum, ?lab, ?reg, ?mem, ?memOff, ?memLab, ?memNum, ?addNum,
    forall_mem_nil _⟩, fun a ha => arithTemplates_faithful ha⟩,
    fun a ha => shiftTemplates_faithful hs ha⟩, computes_div hs,
    readable_call rfl rfl rfl (hs.symbols?_in_rax _), readable_call rfl rfl rfl (hs.symbols?_in_rax _),
    forall_mem_nil _⟩
  case num | wideNum | lab | memLab | memNum | reg | memOff | addNum =>
    refine computes_of_exec rfl fun x d => ?_
    repeat intro _
    exact ⟨_, readAll_cons rfl rfl rfl rfl rfl, fun I m => rfl⟩
  case mem =>
    refine computes_of_exec rfl fun x d a _ => ⟨_, readAll_cons rfl rfl rfl rfl rfl, fun I m => ?_⟩
    show some (none, m.setReg (some d) (I.load m.mem (m.regs (some a) + 0))) = _
    rw [Int64.add_zero]
    rfl

end

/-! ### Conditional jumps -/

theorem isName_of_mem_jumpNames {p : String × Cond} (h : p ∈ jumpNames) : Part.IsName p.1 := by
  revert p
  simp [jumpNames, Part.IsName, Skeleton.mark]

theorem operands?_of_mem_jumpNames {p : String × Cond} (h : p ∈ jumpNames) (l : Option Label) :
    operands? p.1 [.lab l] = some (.jcc p.2 l) := by
  revert p
  simp [operands?, arithNames, jumpNames, List.lookup_cons]

theorem of_mem_jumps {j : Cond × String} (hj : j ∈ jumps) :
    (j.2, j.1) ∈ jumpNames ∧ j.1.isKnown = true := by
  simp only [jumps, mem_cons, not_mem_nil, or_false] at hj
  rcases hj with rfl | rfl | rfl | rfl | rfl | rfl | rfl | rfl | rfl | rfl <;> simp [jumpNames, Cond.isKnown]

theorem jumpTemplates_faithful {j : Cond × String} (hj : j ∈ jumps) :
    ∀ src ∈ jumpTemplates j, src.Faithful amd64 reg? scratch := by
  obtain ⟨hname, hc⟩ := of_mem_jumps hj
  have hword := isName_of_mem_jumpNames hname
  have hread := operands?_of_mem_jumpNames hname
  simp only [jumpTemplates, forall_mem_cons]
  refine ⟨performs_compared hword hread ?jump ?num, performs_compared hword hread ?jump ?reg,
    performs_compared hword hread ?jump ?mem, performs_compared hword hread ?jump ?memOff,
    forall_mem_nil _⟩
  case jump => exact fun I _ _ _ _ hm => exec_jcc reg? hm hc
  case num =>
    exact fun x a v => ⟨.cmp (.imm v) (.reg (some a)), fun _ _ => readAll_cons rfl rfl rfl rfl,
      fun I m => rfl⟩
  case reg =>
    exact fun x a b _ => ⟨.cmp (.reg (some b)) (.reg (some a)),
      fun _ _ => readAll_cons rfl rfl rfl rfl, fun I m => rfl⟩
  case mem =>
    refine fun x a b _ => ⟨.cmp (.mem (some b) 0) (.reg (some a)),
      fun _ _ => readAll_cons rfl rfl rfl rfl, fun I m => exec_cmp rfl ?_⟩
    show some (I.load m.mem (m.regs (some b) + 0)) = _
    rw [Int64.add_zero]
    rfl
  case memOff =>
    exact fun x a b _ v => ⟨.cmp (.mem (some b) v) (.reg (some a)),
      fun _ _ => readAll_cons rfl rfl rfl rfl, fun I m => rfl⟩

/-! ### Statements -/

theorem actions_faithful : ∀ src ∈ actions, src.Faithful amd64 reg? scratch := by
  simp only [actions, forall_mem_append, forall_mem_cons, forall_mem_flatMap]
  refine ⟨⟨⟨?moveNum, ?moveWideNum, ?moveLab, ?moveReg, ?moveMem, ?moveMemOff, ?moveMemLab, ?moveAddNum,
    ?storeReg, ?storeNum, ?storeOffReg, ?storeOffNum, ?storeLabReg, ?jumpLab, ?jumpReg,
    forall_mem_nil _⟩, fun j hj => jumpTemplates_faithful hj⟩, ?place, forall_mem_nil _⟩
  case moveNum | moveWideNum | moveLab | moveMemLab | moveReg | moveMemOff | moveAddNum | storeOffReg |
      storeOffNum | storeLabReg =>
    refine performs_of_exec fun x _ => ⟨fun h => absurd h Bool.false_ne_true, ?_⟩
    repeat intro _
    exact ⟨_, readAll_cons rfl rfl rfl rfl rfl, fun I m => ⟨_, rfl, rfl⟩⟩
  case moveMem =>
    refine performs_of_exec fun x _ => ⟨fun h => absurd h Bool.false_ne_true, fun d _ a _ =>
      ⟨_, readAll_cons rfl rfl rfl rfl rfl, fun I m => ⟨_, rfl, ?_⟩⟩⟩
    show (m.setReg (some d) (I.load m.mem (m.regs (some a) + 0))).store = _
    rw [Int64.add_zero]
    rfl
  case storeReg =>
    refine performs_of_exec fun x _ => ⟨fun h => absurd h Bool.false_ne_true, fun a _ b _ =>
      ⟨_, readAll_cons rfl rfl rfl rfl rfl, fun I m => ⟨_, rfl, ?_⟩⟩⟩
    show (⟨m.regs, I.store m.mem (m.regs (some a) + 0) (m.regs (some b)), []⟩ : Store _) = _
    rw [Int64.add_zero]
    rfl
  case storeNum =>
    refine performs_of_exec fun x _ => ⟨fun h => absurd h Bool.false_ne_true, fun a _ v =>
      ⟨_, readAll_cons rfl rfl rfl rfl rfl, fun I m => ⟨_, rfl, ?_⟩⟩⟩
    show (⟨m.regs, I.store m.mem (m.regs (some a) + 0) v, []⟩ : Store _) = _
    rw [Int64.add_zero]
    rfl
  case jumpLab | jumpReg =>
    refine performs_of_exec fun x hx => ⟨fun _ => exists_branchDests_jump hx, ?_⟩
    repeat intro _
    exact ⟨_, readAll_cons rfl rfl rfl rfl rfl, fun I m => ⟨_, rfl, rfl⟩⟩
  case place =>
    refine performs_of_exec fun x hx => ⟨fun h => absurd h Bool.false_ne_true, ?_⟩
    obtain ⟨l, rfl⟩ := exists_place hx
    exact ⟨_, readAll_cons rfl rfl rfl rfl rfl, fun I m => ⟨_, rfl, rfl⟩⟩

end Codegen.Target.Amd64
