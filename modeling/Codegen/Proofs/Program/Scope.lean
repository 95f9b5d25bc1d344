import Codegen.Proofs.Allocation.Complete
import Codegen.Proofs.Canonical.Normal
import Codegen.Proofs.Program.Compile
import Codegen.Proofs.Selection.Scope

/-!
# The code of a function over virtual registers

A function may name only virtual registers and its frame pointer (`Function.Portable`). Wherever code is
selected for such a function, it is put together from a begin that saves the callee-save registers, a
body that writes neither these nor what holds them, a copy of the result, and an end that restores what
was saved (`Portable.selected_parts`).
-/

namespace Codegen

open Pass Code Semantics Selection List

/-! ### Registers that came later -/

/-- `Q` holds of the register, or it was handed out since. -/
def Supply.Since (s : Supply) (Q : Option Reg → Prop) (c : Supply) (r : Option Reg) : Prop :=
  Q r ∨ ∃ q, r = some q ∧ s.Made c q

theorem Supply.Since.mono {s s₁ s' : Supply} {Q : Option Reg → Prop} {r : Option Reg}
    (h : s.Since Q s₁ r) (hs : s₁.Grows s') : s.Since Q s' r :=
  h.imp_right fun ⟨q, hq, hmade⟩ => ⟨q, hq, hmade.mono (.refl s) hs⟩

theorem Supply.Grows.keeps_since {s s' : Supply} (h : s.Grows s') (Q : Option Reg → Prop) :
    s'.Keeps (s.Since Q) where
  mono hc hr := hr.mono hc
  fresh c hc := .inr ⟨_, rfl, c.made_freshReg.mono (h.trans hc) (.refl _)⟩

/-- What came in two stretches came since the first of them. -/
theorem Supply.Since.join {s s₁ s₂ s' : Supply} {Q : Option Reg → Prop} {r : Option Reg}
    (h : s₂.Since (s.Since Q s₁) s' r) (h₁ : s₁.Grows s') (h₂ : s.Grows s₂) : s.Since Q s' r := by
  obtain h | ⟨q, rfl, hmade⟩ := h
  · exact h.mono h₁
  · exact .inr ⟨q, rfl, hmade.mono h₂ (.refl _)⟩

/-! ### Names that stay -/

theorem Stmt.Atomic.names {P W : Option Reg → Prop} {x : Stmt} (h : x.Atomic P W)
    (hW : ∀ r, W r → P r) : x.Names P W := by
  cases x with
  | missing | seq => cases h
  | place => exact ⟨by simp, forall_mem_nil _, by simp⟩
  | eval e => exact ⟨by simp, h.1.of_mem_regsOf, by simp⟩
  | jump d targets => exact ⟨by simp, h.1.of_mem_regsOf, by simp⟩
  | cjump c l r t f =>
    exact ⟨by simp, forall_mem_append.mpr ⟨h.1.of_mem_regsOf, h.2.1.of_mem_regsOf⟩, by simp⟩
  | move d s =>
    cases d with
    | missing | int | addr | bin | call | eseq => cases h
    | temp r =>
      refine ⟨by simp, forall_mem_append.mpr ⟨?_, h.2.of_mem_regsOf⟩, ?_⟩
      · exact forall_mem_singleton.mpr (hW r h.1)
      · rintro _ _ ⟨⟩
        exact h.1
    | mem a =>
      refine ⟨by simp, forall_mem_append.mpr ⟨h.1.of_mem_regsOf, ?_⟩, by simp⟩
      exact h.2.elim (fun hs => hs.of_mem_regsOf) fun hs => hs.2.of_mem_regsOf

theorem robust_names (P W : Option Reg → Prop) : Robust (Stmt.Names P W) where
  place _ := ⟨by simp, forall_mem_nil _, by simp⟩
  goto _ := ⟨by simp [Stmt.goto], forall_mem_nil _, by simp [Stmt.goto]⟩
  branch _ _ _ h := ⟨by simp, h.regs, by simp⟩

/-! ### Functions over virtual registers -/

namespace Function

variable {t : Target} {env : Set Reg} {f : Frame} {fn : Function} {b : Bench}

/-- A register, if it is one, that was handed out for the function: one of the given registers, not one
of the machine, and not its frame pointer. -/
def Own (t : Target) (env : Set Reg) (f : Frame) (r : Option Reg) : Prop :=
  ∀ q, r = some q → q ∈ env ∧ t.catalog.isMachine q = false ∧ f.fp ≠ r

/-- The trees of the function name only virtual registers and its frame pointer, which they never
write. The target has no supply of its own, and all registers come from that of the function. -/
structure Portable (t : Target) (env : Set Reg) (f : Frame) (fn : Function) (b : Bench) : Prop where
  machine : b.machine = none
  frame : b.frames[fn.frame]? = some f
  owns : b.supply.Owns env
  named : ∀ q ∈ t.catalog.machine, q ∈ env
  fp : f.fp = some t.fp ∨ ∃ q ∈ env, t.catalog.isMachine q = false ∧ f.fp = some q
  locs : ∀ q, .reg q ∈ f.params ++ f.parent.toList → Own t env f (some q)
  regs : ∀ r ∈ regsIn fn.body ++ regsOf fn.result, r = f.fp ∨ Own t env f r
  dsts : f.fp ∉ fn.body.dsts ++ fn.result.dsts

/-- The register that a function leaves its result in, if it has one. -/
def resultReg (fn : Function) (b : Bench) : Option Reg :=
  if fn.result.isPresent then some b.supply.freshReg.1 else none

/-- What the trees of a function name. -/
theorem Portable.tree_names (h : fn.Portable t env f b) :
    Ends fn.tree b (fun x b₁ => b.Keeps b₁ ∧ b.supply.Grows b₁.supply ∧
      x.2 = fn.resultReg b ∧ (∀ q, x.2 = some q → b.supply.Made b₁.supply q) ∧
      (∀ r ∈ regsIn x.1, b.supply.Since (fun r => r = f.fp ∨ Own t env f r) b₁.supply r) ∧
      ∀ r ∈ x.1.dsts, b.supply.Since (Own t env f) b₁.supply r) fun _ => True := by
  have hregs := forall_mem_append.mp h.regs
  have hdst {r : Option Reg} (hr : r ∈ regsIn fn.body ++ regsOf fn.result)
      (hd : r ∈ fn.body.dsts ++ fn.result.dsts) : Own t env f r :=
    (h.regs r hr).resolve_left fun heq => h.dsts (heq ▸ hd)
  rw [tree]
  obtain ⟨y, hy, hyregs, hydsts⟩ : ∃ y, (if fn.body.isPresent then fn.body else .seq []) = y ∧
      (∀ r ∈ regsIn y, r ∈ regsIn fn.body) ∧ ∀ r ∈ y.dsts, r ∈ fn.body.dsts := by
    refine ⟨_, rfl, ?_⟩
    split
    · exact ⟨fun _ => id, fun _ => id⟩
    · exact ⟨forall_mem_nil _, forall_mem_nil _⟩
  have hbody : ∀ r ∈ regsIn y, r = f.fp ∨ Own t env f r := fun r hr => hregs.1 r (hyregs r hr)
  have hydst : ∀ r ∈ y.dsts, Own t env f r := fun r hr =>
    hdst (mem_append_left _ (Stmt.dsts_subset _ (hydsts r hr)))
      (mem_append_left _ (hydsts r hr))
  rw [hy, resultReg]
  split
  · rw [ends_bind, Bench.onSupply, ends_zoom, ends_step]
    have hgrows := b.supply.grows_freshReg
    have hmade := b.supply.made_freshReg
    refine ends_pure.mpr ⟨⟨rfl, rfl⟩, hgrows, rfl, ?_, ?_, ?_⟩
    · rintro _ ⟨⟩
      exact hmade
    · show ∀ r ∈ regsIn y ++ ([some b.supply.freshReg.1] ++ regsOf fn.result ++ []), _
      rw [append_nil, forall_mem_append, forall_mem_append, forall_mem_singleton]
      exact ⟨fun r hr => .inl (hbody r hr), .inr ⟨_, rfl, hmade⟩, fun r hr => .inl (hregs.2 r hr)⟩
    · show ∀ r ∈ y.dsts ++ ([some b.supply.freshReg.1] ++ fn.result.dsts ++ []), _
      rw [append_nil, forall_mem_append, forall_mem_append, forall_mem_singleton]
      refine ⟨fun r hr => .inl (hydst r hr), .inr ⟨_, rfl, hmade⟩, fun r hr => .inl ?_⟩
      exact hdst (mem_append_right _ (Expr.dsts_subset _ hr)) (mem_append_right _ hr)
  · exact ends_pure.mpr ⟨⟨rfl, rfl⟩, .refl _, rfl, by simp, fun r hr => .inl (hbody r hr),
      fun r hr => .inl (hydst r hr)⟩

/-- The canonical form of a tree names what the tree does, and registers that came later. -/
theorem canonical_names {s₀ : Supply} {P W : Option Reg → Prop} {x : Stmt}
    (hs : s₀.Grows b.supply) (hW : ∀ r, W r → P r)
    (hx : ∀ r ∈ regsIn x, s₀.Since P b.supply r) (hd : ∀ r ∈ x.dsts, s₀.Since W b.supply r) :
    Ends (Bench.canonical x) b (fun y b₁ => b.Keeps b₁ ∧ b.supply.Grows b₁.supply ∧
      ∀ z ∈ y.1.flatten, z.Names (s₀.Since P b₁.supply) (s₀.Since W b₁.supply)) fun _ => True := by
  rw [Bench.canonical, ends_zoom, ends_bind, Canonical.stmt, ends_map]
  refine (Canonical.hoistStmt_clean (hs.keeps_since P) (hs.keeps_since W) x (fun r hr _ => hx r hr) hd
    (.refl _)).imp fun ys st h => ?_
  rw [ends_bind, ends_get]
  refine ends_pure.mpr ⟨⟨rfl, rfl⟩, h.grows, ?_⟩
  show ∀ z ∈ (Stmt.ofList ys).flatten, _
  rw [flatten_ofList fun y hy => ?_]
  · exact fun z hz => (h.atomic z hz).names fun r hr => hr.imp_left (hW r)
  · have hatomic := h.atomic y hy
    cases y with
    | missing | seq => cases hatomic
    | move | eval | jump | cjump | place => rfl

end Function

/-! ### The parts of the code -/

namespace Target

variable (t : Target) (f : Frame) (ws : List Reg)

/-- The begin of a function in front of what saves the callee-save registers. -/
def receive : Code :=
  .place f.label :: (f.params.zip t.catalog.params).map (fun p => t.dialect.storeLoc f.fp p.2 p.1) ++
    f.parent.toList.map (t.dialect.storeLoc f.fp (some t.link))

/-- The callee-save registers, each with the register that holds it. -/
def shelves : List (Option Reg × Option Reg) := t.catalog.calleeSave.zip (ws.map some)

/-- The code that saves the callee-save registers. -/
def saves : Code := (t.shelves ws).map fun p => t.dialect.move p.2 p.1

/-- The code that restores them. -/
def restores : Code := (t.shelves ws).map fun p => t.dialect.move p.1 p.2

/-- The instruction that returns. -/
def ret (result : Bool) : Instr :=
  { text := t.dialect.ret
    reads := t.catalog.calleeSave ++ (if result then [t.catalog.result] else []) }

theorem epilogue_eq (result : Bool) :
    t.epilogue (ws.map some) result = t.restores ws ++ [t.ret result] := rfl

/-- The code of a function with the given body, and what delivers the result. -/
def joined (body deliver : Code) (result : Bool) : Code :=
  t.receive f ++ t.saves ws ++ body ++ deliver ++ t.epilogue (ws.map some) result

theorem prologue_eq_receive (s : Supply) : ∃ ws : List Reg,
    (t.prologue f s).1 = t.receive f ++ t.saves ws ∧ (t.prologue f s).2.1 = ws.map some ∧
      ws.length = t.catalog.calleeSave.length ∧ s.HandsOut (t.prologue f s).2.2 ws := by
  obtain ⟨ws, hcode, hsaved, hlen, hout⟩ := t.saveRegs_eq t.catalog.calleeSave s
  refine ⟨ws, ?_, hsaved, hlen, hout⟩
  have hzip : t.shelves ws = ((ws.map some).zip t.catalog.calleeSave).map Prod.swap :=
    (zip_swap _ _).symm
  show t.receive f ++ (t.saveRegs t.catalog.calleeSave s).1 = _
  rw [hcode, saves, hzip, map_map]
  rfl

end Target

namespace Function

variable {t : Target} {env : Set Reg} {f : Frame} {fn : Function} {b : Bench} {names : List String}
  {base : Supply}

/-- The result, if there is one, is copied by one move to where it is returned. -/
def Returned (t : Target) (result : Option Reg) (c : Code) : Prop :=
  result = none ∧ c = [] ∨ result.isSome = true ∧ ∃ i, c = [i] ∧ IsCopy t.catalog.result result i

/-- What is known of the parts of the code that is selected for a function, while registers are handed
out from `s₀` to `s`. -/
structure Parts (t : Target) (names : List String) (env : Set Reg) (f : Frame) (s₀ s : Supply)
    (ws : List Reg) (body deliver : Code) (result : Option Reg) : Prop where
  grows : s₀.Grows s
  length : ws.length = t.catalog.calleeSave.length
  made : ∀ w ∈ ws, s₀.Made s w
  nodup : ws.Nodup
  stays : ∀ i ∈ body, i.StaysIn (t.named names) (s₀.Since (fun r => r = f.fp ∨ Own t env f r) s)
    (s₀.Since (Own t env f) s)
  apart : ∀ i ∈ body, ∀ w ∈ ws, some w ∉ i.writes
  fresh : ∀ q, result = some q → s₀.Made s q
  returned : Returned t result deliver

/-- Code for arranged statements, between the begin and the end of a function. -/
theorem select_continues {s : Supply} {P W : Supply → Option Reg → Prop} {begin : Code}
    {saved : List (Option Reg)} {list : List Stmt} {result : Option Reg}
    (H : t.Scope base names s P W) (hlist : ∀ x ∈ list, x.Names (P s) (W s))
    (hresult : result ≠ t.catalog.result) (log : Array Event) :
    Ends (select t begin saved (.seq list) result) { supply := s, log }
      (fun code st => s.Grows st.supply ∧ ∃ body deliver,
        code = begin ++ body ++ deliver ++ t.epilogue saved result.isSome ∧
        (∀ i ∈ body, i.StaysIn (t.named names) (P st.supply) (W st.supply)) ∧
        Returned t result deliver) fun _ => True := by
  rw [select]
  refine (emit_ends begin).bind ?_
  rintro - st₁ ⟨hsupply₁, hcode₁⟩
  have hsupply₁ : st₁.supply = s := hsupply₁
  have hcode₁ : st₁.code = begin := hcode₁
  rw [selectStmt]
  refine ((selectStmts_continues H list st₁ (hsupply₁ ▸ .refl _) (hsupply₁ ▸ hlist)).within _).bind ?_
  rintro - st₂ ⟨hgrows, body, hcode₂, hbody⟩
  rw [hsupply₁] at hgrows
  rw [hcode₁] at hcode₂
  -- what is left: copy the result, and end
  have hend (deliver : Code) (st₃ : Selection.State) (hsupply₃ : st₃.supply = st₂.supply)
      (hcode₃ : st₃.code = st₂.code ++ deliver) (hdel : Returned t result deliver) :
      Ends (do Selection.emit (t.epilogue saved result.isSome); Selection.take) st₃
        (fun code st => s.Grows st.supply ∧ ∃ body deliver,
          code = begin ++ body ++ deliver ++ t.epilogue saved result.isSome ∧
          (∀ i ∈ body, i.StaysIn (t.named names) (P st.supply) (W st.supply)) ∧
          Returned t result deliver) fun _ => True := by
    refine (emit_ends _).bind ?_
    rintro - st₄ ⟨hsupply₄, hcode₄⟩
    have hsupply : st₄.supply = st₂.supply := hsupply₄.trans hsupply₃
    refine ends_step.mpr ⟨?_, body, deliver, ?_, ?_, hdel⟩
    · exact hsupply ▸ hgrows
    · show st₄.code = _
      rw [hcode₄, hcode₃, hcode₂]
    · exact hsupply ▸ hbody
  cases result with
  | none => exact hend [] st₂ rfl (append_nil _).symm (.inl ⟨rfl, rfl⟩)
  | some q =>
    dsimp only
    rw [Option.isSome_some, if_pos rfl]
    refine (Ends.within (selectStmt_isCopy H.apt H.confined hresult st₂) _).bind ?_
    rintro - st₃ ⟨hsupply₃, i, hcode₃, hi⟩
    exact hend [i] st₃ hsupply₃ hcode₃ (.inr ⟨rfl, i, rfl, hi⟩)

namespace Portable

variable (h : fn.Portable t env f b) {s : Supply} {q : Reg}
include h

/-- What was handed out later is not one of the machine. -/
theorem not_machine_of_made (hq : b.supply.Made s q) : t.catalog.isMachine q = false := by
  by_contra hm
  rw [Bool.not_eq_false, Catalog.isMachine, beq_iff_eq] at hm
  have hold := h.owns.old q (h.named q (Catalog.of_reg?_eq_some hm).1)
  have hle := hq.le
  omega

theorem not_machine_of_since {r : Option Reg} (hr : b.supply.Since (Own t env f) s r) (hq : r = some q) :
    t.catalog.isMachine q = false := by
  obtain hr | ⟨w, hw, hmade⟩ := hr
  · exact (hr q hq).2.1
  · cases hw.symm.trans hq
    exact h.not_machine_of_made hmade

variable (ht : t.Apt base names)
include ht

theorem exists_fp : ∃ p ∈ env, f.fp = some p := by
  obtain hfp | ⟨p, hp, -, hfp⟩ := h.fp
  · have hm := ht.fp_isMachine
    rw [Catalog.isMachine, beq_iff_eq] at hm
    exact ⟨t.fp, h.named _ (Catalog.of_reg?_eq_some hm).1, hfp⟩
  · exact ⟨p, hp, hfp⟩

theorem fp_not_mem_regs : f.fp ∉ t.catalog.regs := by
  intro hmem
  obtain hfp | ⟨p, -, hp, hfp⟩ := h.fp
  · exact ht.fp_not_mem (hfp ▸ hmem)
  · obtain ⟨q, hq, hm⟩ := ht.machine _ hmem
    rw [hfp] at hq
    cases hq
    rw [hp] at hm
    cases hm

theorem fp_ne_of_made (hq : b.supply.Made s q) : f.fp ≠ some q := by
  obtain ⟨p, hp, hfp⟩ := h.exists_fp ht
  intro heq
  cases hfp.symm.trans heq
  have hold := h.owns.old q hp
  have hle := hq.le
  omega

theorem fp_not_since : ¬ b.supply.Since (Own t env f) s f.fp := by
  obtain ⟨p, -, hfp⟩ := h.exists_fp ht
  rintro (hown | ⟨q, hq, hmade⟩)
  · exact (hown p hfp).2.2 rfl
  · exact h.fp_ne_of_made ht hmade hq

/-- The code that is selected for a function over virtual registers has these parts. -/
theorem selected_parts (hconf : ∀ tpl ∈ t.catalog.templates, tpl.Confined) :
    Ends (fn.selected t) b (fun x b₁ => x.1 = f ∧ b₁.machine = none ∧ b₁.frames = b.frames ∧
      ∃ ws body deliver, x.2.1 = t.joined f ws body deliver (fn.resultReg b).isSome ∧
        Parts t names env f b.supply b₁.supply ws body deliver (fn.resultReg b)) fun _ => True := by
  rw [selected, ends_bind, Bench.frame, ends_bind, ends_get, h.frame]
  refine ends_orTrap ?_ fun _ => trivial
  rintro _ ⟨⟩
  -- the tree, its canonical form and its blocks
  refine h.tree_names.bind ?_
  rintro ⟨x, result⟩ b₁ ⟨hb₁, hs₁, hresult, hmade, hregs, hdsts⟩
  have hresult : result = fn.resultReg b := hresult
  dsimp only at hmade hregs hdsts ⊢
  rw [← hresult]
  refine ((canonical_names hs₁ (fun _ => Or.inr) hregs hdsts).within _).bind ?_
  rintro ⟨y, warnings⟩ b₂ ⟨hb₂, hs₂, hy⟩
  have harrange : Ends (Bench.onSupply (Block.arrangeStmt y)) b₂ (fun z b₃ => b₂.Keeps b₃ ∧
      b₂.supply.Grows b₃.supply ∧ ∃ list, z = .seq list ∧ ∀ x ∈ list, x.Names
        (b.supply.Since (fun r => r = f.fp ∨ Own t env f r) b₂.supply)
        (b.supply.Since (Own t env f) b₂.supply)) fun _ => True := by
    rw [Bench.onSupply, ends_zoom]
    refine (arrangeStmt_throughout (robust_names _ _) hy).imp ?_
    rintro z s ⟨hs, hlist⟩
    exact ⟨⟨rfl, rfl⟩, hs, hlist⟩
  dsimp only
  refine (harrange.within _).bind ?_
  rintro _ b₃ ⟨hb₃, hs₃, list, rfl, hlist⟩
  rw [ends_bind]
  refine (b₃.tell_ends _).mono ?_ fun _ _ => trivial
  rintro - b₄ ⟨hb₄, hs₄⟩
  rw [ends_bind]
  refine (b₄.tell_ends _).mono ?_ fun _ _ => trivial
  rintro - b₅ ⟨hb₅, hs₅⟩
  have hkeeps := (((hb₁.trans hb₂).trans hb₃).trans hb₄).trans hb₅
  have hgrows₃ := (hs₁.trans hs₂).trans hs₃
  -- the begin
  rw [ends_bind, ends_onTarget (hkeeps.machine.trans h.machine), hs₅, hs₄]
  dsimp only
  obtain ⟨ws, hbegin, hsaved, hlen, hout⟩ := t.prologue_eq_receive f b₃.supply
  rw [hbegin, hsaved]
  generalize (t.prologue f b₃.supply).2.2 = s₆ at hout
  -- the code: what it hands out comes behind the registers that hold the kept ones
  have hscope : t.Scope base names s₆
      (s₆.Since (b.supply.Since (fun r => r = f.fp ∨ Own t env f r) b₃.supply))
      (s₆.Since (b.supply.Since (Own t env f) b₃.supply)) :=
    ⟨ht, hconf, (Supply.Grows.refl s₆).keeps_since _, (Supply.Grows.refl s₆).keeps_since _,
      fun _ _ hu => hu.imp_left fun hu => hu.imp_left Or.inr⟩
  have hne : result ≠ t.catalog.result := by
    intro heq
    obtain ⟨q, hq, hm⟩ := ht.machine _ (ht.keeping t.catalog.result (by simp))
    rw [h.not_machine_of_made (hmade q (heq.trans hq))] at hm
    cases hm
  rw [ends_bind, Bench.selecting, ends_zoom]
  refine (select_continues hscope (fun z hz => (hlist z hz).mono (fun _ hu => .inl (hu.mono hs₃))
    fun _ hu => .inl (hu.mono hs₃)) hne _).imp ?_
  rintro _ st ⟨hgrows, body, deliver, rfl, hbody, hreturned⟩
  have hwhole := (hgrows₃.trans hout.grows).trans hgrows
  refine ends_pure.mpr ⟨rfl, hkeeps.machine.trans h.machine, hkeeps.frames, ws, body, deliver, rfl,
    hwhole, hlen, fun w hw => (hout.made w hw).mono hgrows₃ hgrows, hout.nodup, fun i hi => ?_,
    fun i hi w hw hmem => ?_, fun q hq => (hmade q hq).mono (.refl _) ?_, hreturned⟩
  · exact (hbody i hi).mono (fun _ => id)
      (fun _ hu => hu.join (hout.grows.trans hgrows) (hgrows₃.trans hout.grows))
      fun _ hu => hu.join (hout.grows.trans hgrows) (hgrows₃.trans hout.grows)
  · -- it came after all that the trees name, and before what the selection hands out
    have hw := hout.made w hw
    have hle := hw.le
    obtain ((hown | ⟨_, ⟨⟩, hearlier⟩) | ⟨_, ⟨⟩, hlater⟩) | hnamed := (hbody i hi).writes _ hmem
    · have hold := h.owns.old w (hown w rfl).1
      have hregs := hgrows₃.regs
      omega
    · exact absurd hearlier.lt (Nat.not_lt.mpr hle)
    · exact absurd hw.lt (Nat.not_lt.mpr hlater.le)
    · obtain ⟨_, ⟨⟩, hm⟩ := ht.machine _ (ht.mem_regs_of_named hnamed)
      rw [h.not_machine_of_made (hw.mono hgrows₃ (.refl _))] at hm
      cases hm
  · exact ((hs₂.trans hs₃).trans hout.grows).trans hgrows

end Portable

end Function

end Codegen
