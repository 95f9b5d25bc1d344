import Codegen.Proofs.Selection.Filling
import Codegen.Proofs.Selection.Pattern

/-!
# Faithful templates

A template is faithful to an instruction set if, with its holes filled, it is read as instructions
that do what its pattern means: they leave the value of an expression in the register for it
(`Computes`), or they do what a statement does (`Performs`). Besides they change no registers but
some fixed ones, which are for scratch.
-/

namespace Codegen

open Semantics Assembly List

/-! ### What statements do -/

namespace Stmt

variable {Mem : Type} (I : Interp Mem)

/-- The label that a conditional jump goes to if its condition holds. -/
def onTrue : Stmt → Option Label
  | .cjump _ _ _ t _ => t
  | _ => none

/-- Where control goes behind a statement, if not to what follows. A conditional jump goes to its
first label or on. -/
def transfer (σ : Store Mem) : Stmt → Option Int64
  | .jump d _ => some (Semantics.eval I d σ).1
  | .cjump c l r t _ =>
    if I.holds c (Semantics.eval I l σ).1 (Semantics.eval I r σ).1 then some (I.addr t) else none
  | _ => none

/-- What a pattern does for what its leaves are bound to. -/
def enact (goal : Option Label) (σ : Store Mem) : Stmt → List Leaf → Option Int64 × Store Mem
  | .move (.temp _) s, .temp r :: ls =>
    (none, σ.setReg r (s.denote I σ.mem (ls.map (Leaf.value I σ))).1)
  | .move (.mem a) s, ls =>
    let p := a.denote I σ.mem (ls.map (Leaf.value I σ))
    (none, σ.write I p.1 (s.denote I σ.mem p.2).1)
  | .jump d _, ls => (some (d.denote I σ.mem (ls.map (Leaf.value I σ))).1, σ)
  | .cjump c l r _ _, ls =>
    let x := l.denote I σ.mem (ls.map (Leaf.value I σ))
    let y := r.denote I σ.mem x.2
    (if I.holds c x.1 y.1 then some (I.addr goal) else none, σ)
  | _, _ => (none, σ)

/-- All operators of a statement pattern can be applied for given values of its leaves. -/
def DefinedAt (mem : Mem) : Stmt → List Int64 → Prop
  | .move (.temp _) s, _ :: vs => s.DefinedAt I mem vs
  | .move d s, vs => d.DefinedAt I mem vs ∧ s.DefinedAt I mem (d.denote I mem vs).2
  | .jump d _, vs => d.DefinedAt I mem vs
  | .cjump _ l r _ _, vs => l.DefinedAt I mem vs ∧ r.DefinedAt I mem (l.denote I mem vs).2
  | _, _ => True

/-- All operators of a statement without effects in its expressions can be applied. -/
def Defined (σ : Store Mem) : Stmt → Prop
  | .move d s => d.Defined I σ ∧ s.Defined I σ
  | .jump d _ => d.Defined I σ
  | .cjump _ l r _ _ => l.Defined I σ ∧ r.Defined I σ
  | _ => True

/-- A move to a register or to memory or a jump, without calls, statements, unknown operators and
unknown conditions inside. -/
def isPlain : Stmt → Bool
  | .move (.temp _) s => s.isPlain
  | .move (.mem a) s => a.isPlain && s.isPlain
  | .jump d _ => d.isPlain
  | .cjump c l r _ _ => c.isKnown && l.isPlain && r.isPlain
  | _ => false

variable {I} {fits : Int64 → Bool} {p x : Stmt} {b : Binding} {σ : Store Mem}

/-- The pattern matches the statement and binds its leaves. -/
inductive Binds (fits : Int64 → Bool) : Stmt → Stmt → Binding → Prop
  | moveReg (q r : Option Reg) {s s' : Expr} {b : Binding} : s.Binds fits s' b →
    Binds fits (.move (.temp q) s) (.move (.temp r) s') (Binding.also ⟨1, [.temp r]⟩ b).above
  | move {d d' s s' : Expr} {a b : Binding} (hd : ∀ q, d ≠ .temp q) : d.Binds fits d' a →
    s.Binds fits s' b → Binds fits (.move d s) (.move d' s') (a.also b).above
  | jump {d d' : Expr} {ts ts' : List (Option Label)} {b : Binding} : d.Binds fits d' b →
    Binds fits (.jump d ts) (.jump d' ts') b.above
  | cjump {c : Cond} {l r l' r' : Expr} {t f t' f' : Option Label} {a b : Binding} :
    l.Binds fits l' a → r.Binds fits r' b →
    Binds fits (.cjump c l r t f) (.cjump c l' r' t' f') (a.also b).above
  | place (l l' : Option Label) : Binds fits (.place l) (.place l') ⟨1, []⟩

theorem binds_of_bind (h : p.bind fits x = some b) : p.Binds fits x b := by
  revert h
  have hboth {y z : Option Binding} (h : (do return (Binding.also (← y) (← z)).above) = some b) :
      ∃ a c, y = some a ∧ z = some c ∧ b = (a.also c).above := by
    simp only [Option.bind_eq_bind, Option.pure_def, Option.bind_eq_some_iff] at h
    obtain ⟨a, ha, c, hc, h⟩ := h
    exact ⟨a, c, ha, hc, (Option.some.inj h).symm⟩
  fun_cases Stmt.bind fits p x with
  | case1 q s r s' =>
    intro h
    obtain ⟨c, hc, rfl⟩ := Option.map_eq_some_iff.mp h
    exact .moveReg q r (Expr.binds_of_bind hc)
  | case3 d s d' s' _ hd =>
    intro h
    obtain ⟨a, c, ha, hc, rfl⟩ := hboth h
    exact .move hd (Expr.binds_of_bind ha) (Expr.binds_of_bind hc)
  | case4 =>
    intro h
    obtain ⟨c, hc, rfl⟩ := Option.map_eq_some_iff.mp h
    exact .jump (Expr.binds_of_bind hc)
  | case5 =>
    intro h
    obtain ⟨a, c, ha, hc, rfl⟩ := hboth h
    exact .cjump (Expr.binds_of_bind ha) (Expr.binds_of_bind hc)
  | case7 =>
    rintro ⟨⟩
    exact .place _ _
  | case2 | case6 | case8 => nofun

/-- A destination that is no register is memory. -/
theorem mem_of_binds {d d' s' : Expr} (hd : ∀ q, d ≠ .temp q) (h : d.Binds fits d' b)
    (hx : (Stmt.move d' s').isPlain = true) :
    ∃ a a' c, d = .mem a ∧ d' = .mem a' ∧ b = c.above ∧ a.Binds fits a' c := by
  cases h with
  | mem h => exact ⟨_, _, _, rfl, rfl, rfl, h⟩
  | reg q | rest q => exact absurd rfl (hd q)
  | int | addr | bin | call => cases hx

/-- The pattern has the value of a pure expression that it matches. -/
theorem denote_leaves {q y : Expr} (h : q.Binds fits y b) (hy : y.isPlain = true) :
    q.denote I σ.mem (b.leaves.map (Leaf.value I σ)) = ((Semantics.eval I y σ).1, []) := by
  have hv := h.denote (I := I) (σ := σ) (Expr.isPure_of_isPlain hy) []
  rwa [append_nil] at hv

/-- A pattern does what the statement does that it matches. -/
theorem Binds.enact (h : p.Binds fits x b) (hx : x.isPlain = true) :
    p.enact I x.onTrue σ b.leaves = (x.transfer I σ, (exec I x σ).2) := by
  cases h with
  | @moveReg q r s s' c hc =>
    show (none, σ.setReg r (s.denote I σ.mem (c.leaves.map (Leaf.value I σ))).1) = _
    rw [denote_leaves hc hx, exec, assign, eval_snd_of_isPure (Expr.isPure_of_isPlain hx)]
    rfl
  | move hd ha hc =>
    obtain ⟨q, q', e, rfl, rfl, rfl, he⟩ := mem_of_binds hd ha hx
    rw [isPlain, Bool.and_eq_true] at hx
    obtain ⟨hq, hs⟩ := hx.imp_left Expr.isPure_of_isPlain
    simp only [Stmt.enact, Binding.leaves_above, Binding.leaves_also, map_append, he.denote hq,
      denote_leaves hc hs, transfer, exec, assign, eval_snd_of_isPure hq,
      eval_snd_of_isPure (Expr.isPure_of_isPlain hs)]
  | @jump d d' ts ts' c hc =>
    show (some (d.denote I σ.mem (c.leaves.map (Leaf.value I σ))).1, σ) = _
    rw [denote_leaves hc hx, exec]
    exact congrArg _ (eval_snd_of_isPure (Expr.isPure_of_isPlain hx) σ).symm
  | cjump ha hc =>
    rw [isPlain, Bool.and_eq_true, Bool.and_eq_true] at hx
    have hl := Expr.isPure_of_isPlain hx.1.2
    simp only [Stmt.enact, Binding.leaves_above, Binding.leaves_also, map_append, ha.denote hl,
      denote_leaves hc hx.2, transfer, exec, eval_snd_of_isPure hl,
      eval_snd_of_isPure (Expr.isPure_of_isPlain hx.2), onTrue]
  | place => cases hx

/-- The first leaf of a move to a register is that register. -/
theorem leaves_of_binds_move {q : Option Reg} {s : Expr}
    (h : (Stmt.move (.temp q) s).Binds fits x b) : ∃ r rest, b.leaves = .temp r :: rest := by
  cases h with
  | moveReg q r => exact ⟨r, _, rfl⟩
  | move hd => exact absurd rfl (hd q)

/-- A pattern makes no calls. -/
theorem calls_enact (goal : Option Label) (σ : Store Mem) (p : Stmt) (ls : List Leaf) :
    (p.enact I goal σ ls).2.calls = σ.calls := by
  fun_cases enact I goal σ p ls <;> rfl

/-- What a pattern does depends on the values of its leaves and the memory, and on the register that a
move writes to. -/
theorem enact_same {K : Option Reg → Prop} {σ' : Store Mem} {ls ls' : List Leaf}
    (goal : Option Label) (h : Same K σ σ')
    (hvals : ls'.map (Leaf.value I σ') = ls.map (Leaf.value I σ))
    (hmove : ∀ q s, p = .move (.temp q) s → ∃ r rest rest', ls = .temp r :: rest ∧
      ls' = .temp r :: rest') :
    (p.enact I goal σ' ls').1 = (p.enact I goal σ ls).1 ∧
      Same K (p.enact I goal σ ls).2 (p.enact I goal σ' ls').2 := by
  cases p with
  | move d s =>
    cases d with
    | temp q =>
      obtain ⟨r, rest, rest', rfl, rfl⟩ := hmove q s rfl
      simp only [map_cons, List.cons.injEq] at hvals
      simp only [enact, hvals.2, h.mem, true_and]
      exact h.setReg r _
    | mem a =>
      simp only [enact, hvals, h.mem, true_and]
      exact h.write _ _
    | _ => exact ⟨rfl, h⟩
  | jump d ts =>
    simp only [enact, hvals, h.mem, true_and]
    exact h
  | cjump c l r t f =>
    simp only [enact, hvals, h.mem, true_and]
    exact h
  | _ => exact ⟨rfl, h⟩

/-- A pattern is defined where the statement is that it matches. -/
theorem Binds.definedAt (h : p.Binds fits x b) (hx : x.isPlain = true) (hd : x.Defined I σ) :
    p.DefinedAt I σ.mem (b.leaves.map (Leaf.value I σ)) := by
  have hexpr {q y : Expr} {c : Binding} (h : q.Binds fits y c) (hy : y.isPlain = true)
      (hd : y.Defined I σ) : q.DefinedAt I σ.mem (c.leaves.map (Leaf.value I σ)) := by
    have hv := h.definedAt (Expr.isPure_of_isPlain hy) hd []
    rwa [append_nil] at hv
  cases h with
  | moveReg q r hc => exact hexpr hc hx hd.2
  | move hne ha hc =>
    obtain ⟨q, q', e, rfl, rfl, rfl, he⟩ := mem_of_binds hne ha hx
    rw [isPlain, Bool.and_eq_true] at hx
    have hq := Expr.isPure_of_isPlain hx.1
    simp only [DefinedAt, Binding.leaves_above, Binding.leaves_also, map_append, Expr.denote,
      he.denote hq]
    exact ⟨he.definedAt hq hd.1 _, hexpr hc hx.2 hd.2⟩
  | @jump _ _ _ _ c hc => exact hexpr (c := c) hc hx hd
  | cjump ha hc =>
    rw [isPlain, Bool.and_eq_true, Bool.and_eq_true] at hx
    have hl := Expr.isPure_of_isPlain hx.1.2
    simp only [DefinedAt, Binding.leaves_above, Binding.leaves_also, map_append, ha.denote hl]
    exact ⟨ha.definedAt hl hd.1 _, hexpr hc hx.2 hd.2⟩
  | place => cases hx

/-- The expressions of a statement. -/
def exprs : Stmt → List Expr
  | .move d s => [d, s]
  | .jump d _ => [d]
  | .cjump _ l r _ _ => [l, r]
  | _ => []

theorem isPlain_of_mem_exprs (hx : x.isPlain = true) : ∀ e ∈ x.exprs, e.isPlain = true := by
  unfold isPlain at hx
  split at hx
  · simp [exprs, Expr.isPlain, hx]
  · simp only [Bool.and_eq_true] at hx
    simp [exprs, Expr.isPlain, hx]
  · simp [exprs, hx]
  · simp only [Bool.and_eq_true] at hx
    simp [exprs, hx]
  · cases hx

theorem defined_of_mem_exprs (hd : x.Defined I σ) : ∀ e ∈ x.exprs, e.Defined I σ := by
  cases x with
  | move | cjump => exact forall_mem_cons.mpr ⟨hd.1, forall_mem_singleton.mpr hd.2⟩
  | jump d ts => exact forall_mem_singleton.mpr hd
  | _ => nofun

theorem regsOf_subset_of_mem_exprs : ∀ e ∈ x.exprs, regsOf e ⊆ regsIn x := by
  cases x with
  | move | cjump =>
    exact forall_mem_cons.mpr ⟨subset_append_left _ _,
      forall_mem_singleton.mpr (subset_append_right _ _)⟩
  | jump d ts => exact forall_mem_singleton.mpr (List.Subset.refl _)
  | _ => nofun

/-- Leaves are bound to what suits them. -/
theorem Binds.suits (h : p.Binds fits x b) : List.Forall₂ Leaf.Suits p.leafKinds b.leaves := by
  cases h with
  | moveReg q r hc => exact .cons trivial hc.suits
  | move hd ha hc => exact rel_append ha.suits hc.suits
  | jump hc => exact hc.suits
  | cjump ha hc => exact rel_append ha.suits hc.suits
  | place => exact .nil

/-- Leaves are bound to parts of the expressions of what is matched. -/
theorem Binds.mem_parts (h : p.Binds fits x b) {l : Leaf} (hl : l ∈ b.leaves) :
    ∃ e ∈ x.exprs, l.expr ∈ e.parts := by
  cases h with
  | moveReg q r hc =>
    obtain rfl | hl := mem_cons.mp hl
    · exact ⟨.temp r, mem_cons_self, Expr.mem_parts_self _⟩
    · exact ⟨_, by simp [exprs], hc.mem_parts hl⟩
  | move _ ha hc | cjump ha hc =>
    obtain hl | hl := mem_append.mp hl
    · exact ⟨_, by simp [exprs], ha.mem_parts hl⟩
    · exact ⟨_, by simp [exprs], hc.mem_parts hl⟩
  | jump hc => exact ⟨_, by simp [exprs], hc.mem_parts hl⟩
  | place => cases hl

end Stmt

/-! ### What templates do -/

/-- The leaf is bound to a constant, a label or a register of which `P` holds. -/
def Leaf.Settled (P : Option Reg → Prop) : LeafKind → Leaf → Prop
  | .int, .int _ | .addr, .addr _ => True
  | .temp, .temp (some r) => P (some r)
  | _, _ => False

namespace Leaf

variable {P Q : Option Reg → Prop} {k : LeafKind} {l : Leaf}

theorem settled_int : Settled P .int l ↔ ∃ v, l = .int v := by
  cases l <;> simp [Settled]

theorem settled_addr : Settled P .addr l ↔ ∃ a, l = .addr a := by
  cases l <;> simp [Settled]

theorem settled_temp : Settled P .temp l ↔ ∃ r, l = .temp (some r) ∧ P (some r) := by
  rcases l with ⟨_ | r⟩ | _ | _ | _ <;> simp [Settled]

variable {ks : List LeafKind} {ls : List Leaf}

/-- What holds however leaves of the given kinds are settled. -/
def ForAll (P : Option Reg → Prop) : List LeafKind → (List Leaf → Prop) → Prop
  | [], R => R []
  | .int :: ks, R => ∀ v, ForAll P ks fun ls => R (.int v :: ls)
  | .addr :: ks, R => ∀ a, ForAll P ks fun ls => R (.addr a :: ls)
  | .temp :: ks, R => ∀ r, P (some r) → ForAll P ks fun ls => R (.temp (some r) :: ls)

theorem ForAll.of_settled {R : List Leaf → Prop} (h : ForAll P ks R)
    (hls : List.Forall₂ (Settled P) ks ls) : R ls := by
  induction hls generalizing R with
  | nil => exact h
  | @cons k l ks ls hl _ ih =>
    cases k with
    | int =>
      obtain ⟨v, rfl⟩ := settled_int.mp hl
      exact ih (h v)
    | addr =>
      obtain ⟨a, rfl⟩ := settled_addr.mp hl
      exact ih (h a)
    | temp =>
      obtain ⟨r, rfl, hr⟩ := settled_temp.mp hl
      exact ih (h r hr)

/-- A register comes first. -/
theorem exists_temp (h : List.Forall₂ (Settled P) (.temp :: ks) ls) :
    ∃ r rest, ls = .temp (some r) :: rest ∧ P (some r) ∧ List.Forall₂ (Settled P) ks rest := by
  obtain ⟨l, rest, hl, hrest, rfl⟩ := forall₂_cons_left_iff.mp h
  obtain ⟨r, rfl, hr⟩ := settled_temp.mp hl
  exact ⟨r, rest, rfl, hr, hrest⟩

theorem Settled.mono (h : Settled P k l) (hPQ : ∀ r, P r → Q r) : Settled Q k l := by
  cases k with
  | int => exact settled_int.mpr (settled_int.mp h)
  | addr => exact settled_addr.mpr (settled_addr.mp h)
  | temp =>
    obtain ⟨r, rfl, hr⟩ := settled_temp.mp h
    exact settled_temp.mpr ⟨r, rfl, hPQ _ hr⟩

/-- What suits a leaf and is not left over is settled. -/
theorem settled_of_suits (h : Suits k l) (hl : ∀ e, l ≠ .glue e)
    (hP : ∀ r ∈ regsOf l.expr, r.isSome = true ∧ P r) : Settled P k l := by
  cases l with
  | int v =>
    cases k with
    | int => trivial
    | addr | temp => cases h
  | addr a =>
    cases k with
    | addr => trivial
    | int | temp => cases h
  | temp r =>
    cases k with
    | temp =>
      obtain ⟨hsome, hr⟩ := hP r (mem_singleton_self r)
      obtain ⟨r, rfl⟩ := Option.isSome_iff_exists.mp hsome
      exact hr
    | int | addr => cases h
  | glue e => exact absurd rfl (hl e)

end Leaf

namespace TemplateSource

variable (isa : Isa) (reg? : String → Option Reg) (scratch : List String) (src : TemplateSource)

/-- The register is for scratch. -/
def IsScratch (r : Option Reg) : Prop := ∃ n ∈ scratch, reg? n = r

/-- With registers that are not for scratch, the template leaves the value of its pattern in the
output register. -/
def Computes (p : Expr) : Prop :=
  (∀ s ∈ src.skeletons, s.isBranch = false) ∧
    ∀ (x : Node) (d : Reg) (leaves : List Leaf), ¬ IsScratch reg? scratch (some d) →
      List.Forall₂ (Leaf.Settled fun r => r ≠ some d ∧ ¬ IsScratch reg? scratch r)
        p.leafKinds leaves →
      ∃ prog, src.asm? isa reg? x leaves (some d) = some prog ∧
        ∀ {Mem : Type} (I : Interp Mem) (m : Machine Mem),
          p.DefinedAt I m.mem (leaves.map (Leaf.value I m.store)) →
          ∃ m', isa.run I reg? prog m = some (none, m') ∧
            m'.regs (some d) = (p.denote I m.mem (leaves.map (Leaf.value I m.store))).1 ∧
            m'.mem = m.mem ∧
            ∀ r, r ≠ some d → ¬ IsScratch reg? scratch r → m'.regs r = m.regs r

/-- With registers that are not for scratch, the template does what its pattern does. -/
def Performs (p : Stmt) : Prop :=
  ∀ (x : Stmt) (leaves : List Leaf), (Node.stmt x).head = (Node.stmt p).head →
    List.Forall₂ (Leaf.Settled fun r => ¬ IsScratch reg? scratch r) p.leafKinds leaves →
    (∀ s ∈ src.skeletons, s.isBranch = true → ∃ dests, Selection.branchDests (.stmt x) = .ok dests) ∧
      ∃ prog, src.asm? isa reg? (.stmt x) leaves none = some prog ∧
        ∀ {Mem : Type} (I : Interp Mem) (m : Machine Mem),
          p.DefinedAt I m.mem (leaves.map (Leaf.value I m.store)) →
          ∃ m', isa.run I reg? prog m = some ((p.enact I x.onTrue m.store leaves).1, m') ∧
            m'.mem = (p.enact I x.onTrue m.store leaves).2.mem ∧
            ∀ r, ¬ IsScratch reg? scratch r →
              m'.regs r = (p.enact I x.onTrue m.store leaves).2.regs r

/-- The texts of the template can be read. -/
def Readable : Prop :=
  ∀ s ∈ src.skeletons, ∃ ss, Part.symbols? reg? src.pattern.leafKinds s.text.toList = some ss

/-- The template does what its pattern means. Of calls only the texts matter. -/
def Faithful : Prop :=
  match src.pattern with
  | .expr (.call ..) => Readable reg? src
  | .expr p => Computes isa reg? scratch src p
  | .stmt p => Performs isa reg? scratch src p

section

variable {isa reg? scratch} {kinds : List LeafKind} {x : Node} {leaves : List Leaf}
  {dst : Option Reg} {s : Skeleton} {rest : List Skeleton} {ss : List Part.Symbol}
  {ts : List Token} {a : isa.Asm} {as : List isa.Asm}

theorem exists_symbols_of_text {cs : List Char} (hs : s.text = Skeleton.marked (String.ofList cs))
    (hss : Part.symbols? reg? kinds (cs.map Skeleton.mark) = some ss) :
    ∃ ss, Part.symbols? reg? kinds s.text.toList = some ss := by
  rw [hs, Skeleton.toList_marked, String.toList_ofList]
  exact ⟨ss, hss⟩

theorem readAll_cons {cs : List Char} (hs : s.text = Skeleton.marked (String.ofList cs))
    (hss : Part.symbols? reg? kinds (cs.map Skeleton.mark) = some ss)
    (hts : Selection.tokens? x leaves dst ss = some ts) (ha : isa.read ts = some a)
    (has : readAll isa reg? kinds x leaves dst rest = some as) :
    readAll isa reg? kinds x leaves dst (s :: rest) = some (a :: as) := by
  rw [readAll, hs, Skeleton.toList_marked, String.toList_ofList, hss, has]
  simp only [Option.bind_some, hts, ha]

/-- A skeleton that is put together from the name of an instruction and its operands. -/
theorem readAll_cons_named {name : String} {cs : List Char}
    (hs : s.text = Skeleton.marked (name ++ String.ofList cs)) (hname : Part.IsName name)
    (hss : Part.symbols? reg? kinds (cs.map Skeleton.mark) = some (.chr ' ' :: ss))
    (hts : Selection.tokens? x leaves dst ss = some ts) (ha : isa.operands? name ts = some a)
    (has : readAll isa reg? kinds x leaves dst rest = some as) :
    readAll isa reg? kinds x leaves dst (s :: rest) = some (a :: as) := by
  have htokens : Selection.tokens? x leaves dst (name.toList.map .chr ++ .chr ' ' :: ss) =
      some (name.toList.map .chr ++ .chr ' ' :: ts) := by
    rw [Selection.tokens?_chars_append, Selection.tokens?, hts]
    rfl
  rw [readAll, hs, Skeleton.toList_marked, Part.symbols?_named hname, hss, has]
  simp only [Option.map_some, Option.bind_some, htokens, isa.read_word fun c hc => (hname c hc).1, ha]

/-- A single instruction that only writes the output register. -/
theorem computes_of_exec {p : Expr} {wide : Bool} (hs : s.isBranch = false)
    (h : ∀ (x : Node) (d : Reg), Leaf.ForAll (fun _ => True) p.leafKinds fun leaves =>
      ∃ a, readAll isa reg? p.leafKinds x leaves (some d) [s] = some [a] ∧
        ∀ {Mem : Type} (I : Interp Mem) (m : Machine Mem), isa.exec I reg? a m =
          some (none, m.setReg (some d)
            (p.denote I m.mem (leaves.map (Leaf.value I m.store))).1)) :
    Computes isa reg? scratch ⟨.expr p, [s], wide⟩ p := by
  refine ⟨fun t ht => mem_singleton.mp ht ▸ hs, fun x d leaves _ hl => ?_⟩
  obtain ⟨a, ha, hexec⟩ :=
    (h x d).of_settled (hl.imp fun k l hkl => hkl.mono fun _ _ => trivial)
  refine ⟨[a], ha, fun I m _ => ⟨_, Isa.run_cons_of_next (hexec I m), ?_, rfl, fun r hr _ => ?_⟩⟩
  · exact m.regs_setReg_self _ _
  · exact m.regs_setReg_of_ne hr _

theorem exists_branchDests_jump {x : Stmt} (hx : (Node.stmt x).head = .jump) :
    ∃ dests, Selection.branchDests (.stmt x) = .ok dests := by
  cases x with
  | jump d ts => exact ⟨_, rfl⟩
  | _ => cases hx

theorem exists_cjump {x : Stmt} {c : Cond} (hx : (Node.stmt x).head = .cjump c) :
    ∃ l r t f, x = .cjump c l r t f := by
  cases x with
  | cjump c' l r t f =>
    cases hx
    exact ⟨l, r, t, f, rfl⟩
  | _ => cases hx

theorem exists_place {x : Stmt} (hx : (Node.stmt x).head = .place) : ∃ l, x = .place l := by
  cases x with
  | place l => exact ⟨l, rfl⟩
  | _ => cases hx

/-- A single instruction that does what the pattern does. -/
theorem performs_of_exec {p : Stmt} {wide : Bool}
    (h : ∀ x : Stmt, (Node.stmt x).head = (Node.stmt p).head →
      (s.isBranch = true → ∃ dests, Selection.branchDests (.stmt x) = .ok dests) ∧
        Leaf.ForAll (fun _ => True) p.leafKinds fun leaves =>
        ∃ a, readAll isa reg? p.leafKinds (.stmt x) leaves none [s] = some [a] ∧
          ∀ {Mem : Type} (I : Interp Mem) (m : Machine Mem), ∃ m',
            isa.exec I reg? a m = some ((p.enact I x.onTrue m.store leaves).1, m') ∧
              m'.store = (p.enact I x.onTrue m.store leaves).2) :
    Performs isa reg? scratch ⟨.stmt p, [s], wide⟩ p := by
  intro x leaves hx hl
  obtain ⟨hb, hall⟩ := h x hx
  obtain ⟨a, ha, hexec⟩ := hall.of_settled (hl.imp fun k l hkl => hkl.mono fun _ _ => trivial)
  refine ⟨fun t ht => mem_singleton.mp ht ▸ hb, [a], ha, fun I m _ => ?_⟩
  obtain ⟨m', hm, hstore⟩ := hexec I m
  refine ⟨m', by rw [Isa.run_singleton, hm], ?_, fun r _ => ?_⟩
  · exact congrArg Store.mem hstore
  · exact congrFun (congrArg Store.regs hstore) r

/-- A comparison with a register and the jump behind it. -/
theorem performs_compared {c : Cond} {name : String} {jump : Option Label → isa.Asm} {q : Expr}
    (hname : Part.IsName name) (hread : ∀ l, isa.operands? name [.lab l] = some (jump l))
    (hjump : ∀ {Mem : Type} (I : Interp Mem) {m : Machine Mem} {x y : Int64} (l : Option Label),
      m.flags = some (.ofSub x y) →
      isa.exec I reg? (jump l) m = some (if I.holds c x y then some (I.addr l) else none, m))
    (hq : ∀ (x : Node) (r : Reg), Leaf.ForAll (fun _ => True) q.leafKinds fun leaves =>
      ∃ a, (∀ rest as, readAll isa reg? (.temp :: q.leafKinds) x (.temp (some r) :: leaves) none rest =
            some as → readAll isa reg? (.temp :: q.leafKinds) x (.temp (some r) :: leaves) none
              (s :: rest) = some (a :: as)) ∧
        ∀ {Mem : Type} (I : Interp Mem) (m : Machine Mem), isa.exec I reg? a m =
          some (none, { m with flags := some (.ofSub (m.regs (some r))
            (q.denote I m.mem (leaves.map (Leaf.value I m.store))).1) })) :
    Performs isa reg? scratch (action (.cjump c reg q none none) [s, br (name ++ " ‹true›")])
      (.cjump c reg q none none) := by
  intro x leaves hx h
  obtain ⟨y, z, t, f, rfl⟩ := exists_cjump hx
  obtain ⟨r, leaves, rfl, -, h⟩ := Leaf.exists_temp h
  obtain ⟨a, hcmp, hexec⟩ :=
    (hq _ r).of_settled (h.imp fun k l hkl => hkl.mono fun _ _ => trivial)
  have hlast : readAll isa reg? (.temp :: q.leafKinds) (.stmt (.cjump c y z t f))
      (.temp (some r) :: leaves) none [br (name ++ " ‹true›")] = some [jump t] :=
    readAll_cons_named rfl hname rfl rfl (hread t) rfl
  refine ⟨fun _ _ _ => ⟨_, rfl⟩, _, hcmp _ _ hlast, fun I m _ => ?_⟩
  let m' : Machine _ := { m with flags := some (.ofSub (m.regs (some r))
    (q.denote I m.mem (leaves.map (Leaf.value I m.store))).1) }
  have hrun : isa.run I reg? [jump t] m' = some (_, m') :=
    (Isa.run_singleton _ _).trans (hjump I t rfl)
  exact ⟨m', (Isa.run_cons_of_next (hexec I m)).trans hrun, rfl, fun r _ => rfl⟩

/-- A call and the copy of its result can be read. -/
theorem readable_call {f : Expr} {s' : Skeleton} {cs cs' : List Char} {ss' : List Part.Symbol}
    (hs : s.text = Skeleton.marked (String.ofList cs))
    (hss : Part.symbols? reg? f.leafKinds (cs.map Skeleton.mark) = some ss)
    (hs' : s'.text = Skeleton.marked (String.ofList cs'))
    (hss' : Part.symbols? reg? f.leafKinds (cs'.map Skeleton.mark) = some ss') :
    (TemplateSource.value (.call f [] .missing) [s, s']).Readable reg? :=
  forall_mem_cons.mpr ⟨exists_symbols_of_text hs hss,
    forall_mem_singleton.mpr (exists_symbols_of_text hs' hss')⟩

end

end TemplateSource

end Codegen
