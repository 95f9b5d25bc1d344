import Codegen.Canonical.Tree
import Codegen.Proofs.Pass

/-!
# Hoisting trees

A statement inside the destination of a move is taken apart into the parts of its sequences. A part
has the canonical form that it has elsewhere (`hoistParts_cases`), so that nothing is to be shown of
parts that is not shown of statements.

What holds of all canonical forms is shown by one induction over trees, with a rule for each way to
build them (`Hoisting`).
-/

namespace Codegen.Semantics

/-- The operand of a call for its link. -/
def linkOperands (link : Expr) : List Expr := if link.isPresent then [link] else []

end Codegen.Semantics

namespace Codegen.Canonical

open Pass Semantics

theorem within_branchStmts (place : Context) (cond : Cond) (l r : Hoisted) (t f : Option Label) :
    within place (branchStmts cond l r t f) = branchStmts cond l r t f := by
  rw [branchStmts, within_bind]
  congr 1
  funext ⟨pre, a, b⟩
  dsimp only
  split
  · rw [within_bind]
    cases cond.holds? _ _ <;> rfl
  · rfl

/-- Inside a destination a statement that is no sequence is no part, or one part. -/
theorem hoistParts_cases (i : Nat) (x : Stmt) (hx : ∀ list, x ≠ .seq list) :
    (x = .missing ∨ ∃ e, x = .eval e ∧ e.isConst = true) ∧ hoistParts i x = pure ([], i) ∨
    hoistParts i x = (fun ys => (ys, i + 1)) <$> Pass.within (.item i) (hoistStmt x) := by
  cases x with
  | missing => exact .inl ⟨.inl rfl, by rw [hoistParts]⟩
  | seq list => exact absurd rfl (hx list)
  | place | move => exact .inr (by rw [hoistParts, hoistStmt])
  | eval e =>
    cases hconst : e.isConst with
    | true => exact .inl ⟨.inr ⟨e, rfl, hconst⟩, by rw [hoistParts, if_pos hconst]⟩
    | false =>
      right
      rw [hoistParts, if_neg (by simp [hconst]), hoistStmt, map_eq_pure_bind, map_eq_pure_bind,
        within_bind, bind_assoc]
      rfl
  | jump d targets =>
    right
    rw [hoistParts, hoistStmt, map_eq_pure_bind]
    split
    · rw [within_bind, bind_assoc]
      rfl
    · dsimp only
      rw [within_bind, bind_assoc]
      rfl
  | cjump c l r t f =>
    right
    rw [hoistParts, hoistStmt, map_eq_pure_bind]
    split
    · rw [within_bind, bind_assoc]
      rfl
    · dsimp only
      simp only [within_bind, bind_assoc, within_branchStmts]

mutual

/-- Without parts there are no statements. -/
theorem hoistParts_counts (i : Nat) (x : Stmt) (st : State) :
    Ends (hoistParts i x) st (fun p _ => i ≤ p.2 ∧ (p.2 = i → p.1 = [])) fun _ => True := by
  have hpart (hx : ∀ list, x ≠ .seq list) :
      Ends (hoistParts i x) st (fun p _ => i ≤ p.2 ∧ (p.2 = i → p.1 = [])) fun _ => True := by
    rcases hoistParts_cases i x hx with ⟨-, h⟩ | h <;> rw [h]
    · exact ends_pure.mpr ⟨Nat.le_refl i, fun _ => rfl⟩
    · exact ends_map.mpr (ends_of_forall fun ys _ _ =>
        ⟨Nat.le_succ i, fun h => absurd h (Nat.succ_ne_self i)⟩)
  cases x with
  | seq list =>
    rw [hoistParts]
    exact hoistPartsOf_counts i list st
  | missing | move | eval | jump | cjump | place => exact hpart nofun

theorem hoistPartsOf_counts (i : Nat) (list : List Stmt) (st : State) :
    Ends (hoistPartsOf i list) st (fun p _ => i ≤ p.2 ∧ (p.2 = i → p.1 = [])) fun _ => True := by
  cases list with
  | nil =>
    rw [hoistPartsOf]
    exact ends_pure.mpr ⟨Nat.le_refl i, fun _ => rfl⟩
  | cons x xs =>
    rw [hoistPartsOf]
    refine (hoistParts_counts i x st).bind ?_
    rintro ⟨ys, n⟩ st₁ ⟨hle, hnil⟩
    refine (hoistPartsOf_counts n xs st₁).bind ?_
    rintro ⟨zs, m⟩ st₂ ⟨hle', hnil'⟩
    refine ends_pure.mpr ⟨Nat.le_trans hle hle', fun h => ?_⟩
    -- no part was counted in either half
    have hn : n = i := Nat.le_antisymm (Nat.le_trans hle' (Nat.le_of_eq h)) hle
    exact List.append_eq_nil_iff.mpr ⟨hnil hn, hnil' (h.trans hn.symm)⟩

end

/-- A move to a destination behind statements is a move behind them. -/
theorem hoistMove_eseq (s : Stmt) (v : Expr) (src : Bool → Run Hoisted) :
    hoistMove (.eseq s v) src = hoistParts 0 s >>= fun p =>
      (p.1 ++ ·) <$> if p.2 = 0 then hoistMove v src
        else Pass.within (.item p.2) (hoistMove v src) := by
  rw [hoistMove]
  refine bind_congr_ends (hoistParts_counts 0 s) ?_
  rintro ⟨first, n⟩ ⟨-, hnil⟩
  dsimp only at hnil ⊢
  split
  · rename_i hn
    rw [hnil hn]
    exact (id_map _).symm
  · rw [map_eq_pure_bind]

/-! ### Operands -/

/-- Nothing changes the address of a label. -/
theorem hoistAll_addr (l : Option Label) (h : Hoisted) (c : Supply) :
    hoistAll [⟨[], .addr l⟩, h] c = (h.pre, [.addr l, h.value], c) := by
  obtain ⟨pre, value⟩ := h
  cases pre with
  | nil => rfl
  | cons x xs => simp [hoistAll, hoistAfter, saveClashing, Effects.commutes]

theorem ends_pullPair_addr {st : State} (l : Option Label) (h : Hoisted) :
    Ends (pullPair ⟨[], .addr l⟩ h) st (fun p st' => p = (h.pre, .addr l, h.value) ∧ st' = st)
      fun _ => True := by
  rw [pullPair, pull, ends_bind, ends_step, hoistAll_addr]
  exact ends_pure.mpr ⟨rfl, rfl⟩

theorem forall_mem_operands {p : Expr → Prop} {f link : Expr} {args : List Expr} (hf : p f)
    (hargs : ∀ e ∈ args, p e) (hlink : link.isPresent = true → p link) :
    ∀ e ∈ f :: (args ++ linkOperands link), p e := by
  refine List.forall_mem_cons.mpr ⟨hf, List.forall_mem_append.mpr ⟨hargs, ?_⟩⟩
  rw [linkOperands]
  split
  · exact List.forall_mem_singleton.mpr (hlink ‹_›)
  · exact List.forall_mem_nil _

/-- An application to hoisted operands. -/
def binFrom (op : Op) (l r : Hoisted) (pos : Int) : Run Hoisted := do
  let (pre, a, b) ← pullPair l r
  warnDivision op b pos
  return ⟨pre, .fold op a b pos⟩

/-- A call of hoisted operands, which goes through a fresh register unless it may stay. -/
def callFrom (ops : List Hoisted) (args : Nat) (linked whole : Bool) : Run Hoisted := do
  let (pre, values) ← pull ops
  let call := callOf values args linked
  if whole then return ⟨pre, call⟩
  else
    let r ← freshReg
    return ⟨pre ++ [.move (.temp (some r)) call], .temp (some r)⟩

/-- A move of a hoisted value to memory at a hoisted address. -/
def storeFrom (a v : Hoisted) : Run (List Stmt) := do
  let (pre, a, v) ← pullPair a v
  return pre ++ [.move (.mem a) v]

/-! ### The induction over trees -/

/-- Expressions without parts. -/
def IsLeaf : Expr → Prop
  | .int _ | .addr _ | .temp (some _) => True
  | _ => False

section

variable {E : Expr → Bool → State → State → Hoisted → Prop}
  {S : Stmt → State → State → List Stmt → Prop}

/-- Expressions are hoisted one after the other, each as `E` says. -/
inductive HoistedAll (E : Expr → Bool → State → State → Hoisted → Prop) :
    List Expr → State → State → List Hoisted → Prop
  | nil (st : State) : HoistedAll E [] st st []
  | cons {e : Expr} {es : List Expr} {h : Hoisted} {hs : List Hoisted} {st st₁ st₂ : State} :
    E e false st st₁ h → HoistedAll E es st₁ st₂ hs → HoistedAll E (e :: es) st st₂ (h :: hs)

theorem HoistedAll.append {es es' : List Expr} {hs hs' : List Hoisted} {st st₁ st₂ : State}
    (h : HoistedAll E es st st₁ hs) (h' : HoistedAll E es' st₁ st₂ hs') :
    HoistedAll E (es ++ es') st st₂ (hs ++ hs') := by
  induction h with
  | nil => exact h'
  | cons he _ ih => exact .cons he (ih h')

theorem HoistedAll.length {es : List Expr} {hs : List Hoisted} {st st₁ : State}
    (h : HoistedAll E es st st₁ hs) : hs.length = es.length := by
  induction h with
  | nil => rfl
  | cons _ _ ih => exact congrArg (· + 1) ih

/-- What is shown of the operands of a call under a condition. -/
theorem HoistedAll.of_imp {p : Expr → Prop} {G : State → Prop} {es : List Expr} {hs : List Hoisted}
    {st st₁ : State} (hnext : ∀ {e st st' h}, G st → E e false st st' h → G st')
    (h : HoistedAll (fun e w st st' h => p e ∧ G st → E e w st st' h) es st st₁ hs)
    (hp : ∀ e ∈ es, p e) (hst : G st) : HoistedAll E es st st₁ hs := by
  induction h with
  | nil => exact .nil _
  | cons he _ ih =>
    rw [List.forall_mem_cons] at hp
    have h := he ⟨hp.1, hst⟩
    exact .cons h (ih hp.2 (hnext hst h))

/-- `E` is kept on the way from expressions, and `S` on the way from statements, to their canonical
forms between a state and the next. -/
structure Hoisting (E : Expr → Bool → State → State → Hoisted → Prop)
    (S : Stmt → State → State → List Stmt → Prop) : Prop where
  leaf {e w st} : IsLeaf e → E e w st st ⟨[], e⟩
  bin {op l r pos w st st₁ st₂ hl hr} : E l false st st₁ hl → E r false st₁ st₂ hr →
    Ends (binFrom op hl hr pos) st₂ (fun h st₃ => E (.bin op l r pos) w st st₃ h) fun _ => True
  mem {a w st st₁ h} : E a false st st₁ h → E (.mem a) w st st₁ ⟨h.pre, .mem h.value⟩
  call {f args link w st st₁ hs} : HoistedAll E (f :: (args ++ linkOperands link)) st st₁ hs →
    Ends (callFrom hs args.length link.isPresent w) st₁
      (fun h st₂ => E (.call f args link) w st st₂ h) fun _ => True
  eseq {x v w st st₁ st₂ ys h} : S x st st₁ ys → E v w st₁ st₂ h →
    E (.eseq x v) w st st₂ ⟨ys ++ h.pre, h.value⟩
  nil {st} : S (.seq []) st st []
  cons {x xs st st₁ st₂ ys zs} : S x st st₁ ys → S (.seq xs) st₁ st₂ zs →
    S (.seq (x :: xs)) st st₂ (ys ++ zs)
  place {l st} : S (.place (some l)) st st [.place (some l)]
  eval {e st st₁ h} : E e true st st₁ h → S (.eval e) st st₁ (evalStmts h)
  jump {d targets st st₁ h} : targets ≠ [] → E d false st st₁ h →
    S (.jump d targets) st st₁ (h.pre ++ [.jump h.value targets])
  cjump {c l r t f st st₁ st₂ hl hr} : t.isSome = true → f.isSome = true → E l false st st₁ hl →
    E r false st₁ st₂ hr →
    Ends (branchStmts c hl hr t f) st₂ (fun ys st₃ => S (.cjump c l r t f) st st₃ ys) fun _ => True
  toReg {r e st st₁ h} : E e true st st₁ h →
    S (.move (.temp r) e) st st₁ (h.pre ++ [.move (.temp r) h.value])
  /-- A move to a fixed address, behind which a call may stay. -/
  toFixed {l e st st₁ h} : E e true st st₁ h →
    S (.move (.mem (.addr l)) e) st st₁ (h.pre ++ [.move (.mem (.addr l)) h.value])
  toMem {a e st st₁ st₂ ha h} : isFixedAddress a = false → E a false st st₁ ha →
    E e false st₁ st₂ h →
    Ends (storeFrom ha h) st₂ (fun ys st₃ => S (.move (.mem a) e) st st₃ ys) fun _ => True
  /-- A move to a destination behind a statement. -/
  behind {x d e st st₁ st₂ ys zs} : S x st st₁ ys → S (.move d e) st₁ st₂ zs →
    S (.move (.eseq x d) e) st st₂ (ys ++ zs)
  /-- What is no part of a destination. -/
  nothing {x st} : (x = .missing ∨ ∃ e, x = .eval e ∧ e.isConst = true) → S x st st []

namespace Hoisting

mutual

theorem expr (H : Hoisting E S) (e : Expr) (whole : Bool) (st : State) :
    Ends (hoistExpr e whole) st (fun h st' => E e whole st st' h) fun _ => True := by
  cases e with
  | missing =>
    rw [hoistExpr]
    exact ends_fail.mpr trivial
  | int | addr =>
    rw [hoistExpr]
    exact ends_pure.mpr (H.leaf trivial)
  | temp r =>
    cases r with
    | none =>
      rw [hoistExpr]
      exact ends_fail.mpr trivial
    | some r =>
      rw [hoistExpr]
      exact ends_pure.mpr (H.leaf trivial)
  | bin op l r pos =>
    rw [hoistExpr]
    refine (H.expr l false st).bind fun hl st₁ h1 => ?_
    exact (H.expr r false st₁).bind fun hr st₂ h2 => H.bin h1 h2
  | mem a =>
    rw [hoistExpr]
    exact (H.expr a false st).bind fun h st₁ h1 => ends_pure.mpr (H.mem h1)
  | call f args link =>
    rw [hoistExpr]
    refine ((H.expr f false st).within _).bind fun hf st₁ h1 => ?_
    refine (H.exprs 0 args st₁).bind fun as st₂ h2 => ?_
    have hcall (ls : List Hoisted) (st₃ : State) (h3 : HoistedAll E (linkOperands link) st₂ st₃ ls) :=
      H.call (w := whole) (.cons h1 (h2.append h3))
    dsimp only
    split
    · rename_i hp
      rw [linkOperands, if_pos hp] at hcall
      rw [ends_bind, ends_map]
      exact ((H.expr link false st₂).within _).imp fun l st₃ h3 => hcall [l] st₃ (.cons h3 (.nil _))
    · rename_i hp
      rw [linkOperands, if_neg hp] at hcall
      exact hcall [] st₂ (.nil _)
  | eseq x v =>
    rw [hoistExpr]
    refine (H.stmt x st).bind fun ys st₁ h1 => ?_
    exact (H.expr v whole st₁).bind fun h st₂ h2 => ends_pure.mpr (H.eseq h1 h2)

theorem exprs (H : Hoisting E S) (i : Nat) (es : List Expr) (st : State) :
    Ends (hoistArgs i es) st (fun hs st' => HoistedAll E es st st' hs) fun _ => True := by
  cases es with
  | nil =>
    rw [hoistArgs]
    exact ends_pure.mpr (.nil _)
  | cons e es =>
    rw [hoistArgs]
    refine ((H.expr e false st).within _).bind fun h st₁ h1 => ?_
    exact (H.exprs (i + 1) es st₁).bind fun hs st₂ h2 => ends_pure.mpr (.cons h1 h2)

theorem stmt (H : Hoisting E S) (x : Stmt) (st : State) :
    Ends (hoistStmt x) st (fun ys st' => S x st st' ys) fun _ => True := by
  cases x with
  | missing =>
    rw [hoistStmt]
    exact ends_fail.mpr trivial
  | seq list =>
    rw [hoistStmt]
    exact H.stmts 0 list st
  | place l =>
    rw [hoistStmt]
    cases l with
    | none => exact ends_fail.mpr trivial
    | some l => exact ends_pure.mpr H.place
  | move d e =>
    rw [hoistStmt]
    exact H.move d st fun whole st => H.expr e whole st
  | eval e =>
    rw [hoistStmt, ends_map]
    exact (H.expr e true st).imp fun h st₁ h1 => H.eval h1
  | jump d targets =>
    rw [hoistStmt]
    split
    · exact ends_bind.mpr (ends_fail.mpr trivial)
    · rename_i ht
      exact (H.expr d false st).bind fun h st₁ h1 =>
        ends_pure.mpr (H.jump (fun hnil => ht (List.isEmpty_iff.mpr hnil)) h1)
  | cjump c l r t f =>
    rw [hoistStmt]
    split
    · exact ends_bind.mpr (ends_fail.mpr trivial)
    · rename_i hlabels
      have hsome : t.isSome = true ∧ f.isSome = true := by
        cases t <;> cases f <;> simp_all
      refine (H.expr l false st).bind fun hl st₁ h1 => ?_
      exact (H.expr r false st₁).bind fun hr st₂ h2 => H.cjump hsome.1 hsome.2 h1 h2

theorem stmts (H : Hoisting E S) (i : Nat) (list : List Stmt) (st : State) :
    Ends (hoistList i list) st (fun ys st' => S (.seq list) st st' ys) fun _ => True := by
  cases list with
  | nil =>
    rw [hoistList]
    exact ends_pure.mpr H.nil
  | cons x xs =>
    rw [hoistList]
    refine ((H.stmt x st).within _).bind fun ys st₁ h1 => ?_
    exact (H.stmts (i + 1) xs st₁).bind fun zs st₂ h2 => ends_pure.mpr (H.cons h1 h2)

theorem move (H : Hoisting E S) (d : Expr) {e : Expr} (st : State)
    (he : ∀ whole st, Ends (hoistExpr e whole) st (fun h st' => E e whole st st' h) fun _ => True) :
    Ends (hoistMove d fun whole => hoistExpr e whole) st (fun ys st' => S (.move d e) st st' ys)
      fun _ => True := by
  cases d with
  | missing | int | addr | bin | call =>
    rw [hoistMove]
    · exact ends_fail.mpr trivial
    all_goals exact nofun
  | temp r =>
    rw [hoistMove]
    exact (he true st).bind fun h st₁ h1 => ends_pure.mpr (H.toReg h1)
  | mem a =>
    rw [hoistMove]
    cases hfixed : isFixedAddress a with
    | true =>
      -- nothing comes in front of the address of a label, so a call may stay behind it
      cases a with
      | missing | int | temp | bin | mem | call | eseq => cases hfixed
      | addr l =>
        rw [hoistExpr, pure_bind]
        refine (he true st).bind fun h st₁ h1 => ?_
        refine (ends_pullPair_addr l h).bind ?_
        rintro _ st₂ ⟨rfl, rfl⟩
        exact ends_pure.mpr (H.toFixed h1)
    | false =>
      refine (H.expr a false st).bind fun ha st₁ h1 => ?_
      exact (he false st₁).bind fun h st₂ h2 => H.toMem hfixed h1 h2
  | eseq x d =>
    rw [hoistMove_eseq]
    refine (H.parts 0 x st (H.stmt x st)).bind fun p st₁ h1 => ?_
    exact ends_map.mpr (((H.move d st₁ he).within_unless _ _).imp fun zs st₂ h2 => H.behind h1 h2)

theorem parts (H : Hoisting E S) (i : Nat) (x : Stmt) (st : State)
    (hx : Ends (hoistStmt x) st (fun ys st' => S x st st' ys) fun _ => True) :
    Ends (hoistParts i x) st (fun p st' => S x st st' p.1) fun _ => True := by
  have hpart (hne : ∀ list, x ≠ .seq list) :
      Ends (hoistParts i x) st (fun p st' => S x st st' p.1) fun _ => True := by
    rcases hoistParts_cases i x hne with ⟨hnone, h⟩ | h <;> rw [h]
    · exact ends_pure.mpr (H.nothing hnone)
    · exact ends_map.mpr (hx.within _)
  cases x with
  | seq list =>
    rw [hoistParts]
    exact H.partsOf i list st
  | missing | place | move | eval | jump | cjump => exact hpart nofun

theorem partsOf (H : Hoisting E S) (i : Nat) (list : List Stmt) (st : State) :
    Ends (hoistPartsOf i list) st (fun p st' => S (.seq list) st st' p.1) fun _ => True := by
  cases list with
  | nil =>
    rw [hoistPartsOf]
    exact ends_pure.mpr H.nil
  | cons x xs =>
    rw [hoistPartsOf]
    refine (H.parts i x st (H.stmt x st)).bind fun p st₁ h1 => ?_
    exact (H.partsOf p.2 xs st₁).bind fun q st₂ h2 => ends_pure.mpr (H.cons h1 h2)

end

end Hoisting

end

end Codegen.Canonical
