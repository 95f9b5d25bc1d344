import Codegen.Proofs.Canonical.Faults
import Codegen.Proofs.Selection.Munch
import Codegen.Proofs.Selection.Progress
import Codegen.Proofs.Template.Grammar

/-!
# Completeness of selection

On both machines code is selected for exactly the trees all of whose nodes can be covered
(`Selection.selectStmt_iff`): no part is absent, no statement stands inside of an expression, and
moves go to registers or to memory. A tree with a node that can not be covered is refused for want of
a template. That a step does one or the other is said by `Selection.Decides`, which is put together
along the steps.
-/

namespace Codegen

open List

/-! ### Nodes that can be covered -/

/-- Whether the operator, the condition or the register of a node is one that there is. -/
def Node.isResolved : Node → Bool
  | .expr (.bin op _ _ _) => op.isKnown
  | .expr (.temp r) => r.isSome
  | .stmt (.cjump c _ _ _ _) => c.isKnown
  | .expr _ | .stmt _ => true

/-- Whether instructions can be selected for a node, as far as it is up to the node itself. -/
def Node.isCoverable : Node → Bool
  | .expr .missing | .expr (.eseq ..) | .stmt .missing => false
  | .stmt (.move d _) => d.isPlace
  | .expr _ | .stmt _ => true

theorem Node.isKnown_head_of_isResolved {x : Node} (h : x.isResolved = true) :
    x.head.isKnown = true := by
  rcases x with e | y
  · cases e with
    | bin => exact h
    | missing | int | addr | temp | mem | call | eseq => rfl
  · cases y with
    | cjump => exact h
    | missing | move | eval | jump | seq | place => rfl

theorem Expr.mem_nodes_self (x : Expr) : .expr x ∈ x.nodes := by
  cases x <;> exact mem_cons_self

theorem Stmt.mem_nodes_self (x : Stmt) : .stmt x ∈ x.nodes := by
  cases x <;> exact mem_cons_self

theorem Expr.nodes_subset_of_mem_parts {x e : Expr} (he : e ∈ x.parts) : e.nodes ⊆ x.nodes := by
  refine of_mem_parts (P := fun e => e.nodes ⊆ x.nodes) (List.Subset.refl _) he ?_ ?_ ?_
  · exact fun h => append_subset.mp (cons_subset.mp h).2
  · exact fun h => (cons_subset.mp h).2
  · exact fun h => (append_subset.mp (append_subset.mp (cons_subset.mp h).2).1).1

theorem Stmt.nodes_subset_of_mem_exprs {x : Stmt} : ∀ e ∈ x.exprs, e.nodes ⊆ x.nodes := by
  cases x with
  | move | cjump =>
    exact forall_mem_cons.mpr ⟨subset_cons_of_subset _ (subset_append_left _ _),
      forall_mem_singleton.mpr (subset_cons_of_subset _ (subset_append_right _ _))⟩
  | jump d ts => exact forall_mem_singleton.mpr (subset_cons_self _ _)
  | _ => nofun

/-- All nodes of what the leaves are bound to. -/
def Leaf.nodesOf (ls : List Leaf) : List Node := ls.flatMap fun l => l.expr.nodes

variable {fits : Int64 → Bool} {b : Binding}

theorem Expr.Binds.nodesOf_subset {p x : Expr} (h : p.Binds fits x b) :
    Leaf.nodesOf b.leaves ⊆ x.nodes := by
  intro n hn
  obtain ⟨l, hl, hn⟩ := mem_flatMap.mp hn
  exact Expr.nodes_subset_of_mem_parts (h.mem_parts hl) hn

theorem Stmt.Binds.nodesOf_subset {p x : Stmt} (h : p.Binds fits x b) :
    Leaf.nodesOf b.leaves ⊆ x.nodes := by
  intro n hn
  obtain ⟨l, hl, hn⟩ := mem_flatMap.mp hn
  obtain ⟨e, he, hl⟩ := h.mem_parts hl
  exact Stmt.nodes_subset_of_mem_exprs e he (Expr.nodes_subset_of_mem_parts hl hn)

/-- Whether an expression can be covered is up to what a match leaves over. -/
theorem Expr.Binds.coverable {p x : Expr} (hp : p.IsOperand) (h : p.Binds fits x b) :
    (∀ n ∈ x.nodes, n.isCoverable = true) ↔ ∀ n ∈ Leaf.nodesOf b.leaves, n.isCoverable = true := by
  induction h with
  | reg | rest | int | addr => simp [Leaf.nodesOf, Leaf.expr]
  | bin _ _ ihl ihr =>
    obtain ⟨-, hl, hr⟩ := isOperand_bin.mp hp
    rw [nodes, forall_mem_cons, forall_mem_append, ihl hl, ihr hr, ← forall_mem_append]
    simp [Node.isCoverable, Leaf.nodesOf]
  | mem _ ih =>
    rw [nodes, forall_mem_cons, ih (isOperand_mem.mp hp)]
    simp [Node.isCoverable]
  | call => cases hp

theorem Stmt.Binds.coverable {p x : Stmt} (hp : (Node.stmt p).IsPattern) (h : p.Binds fits x b) :
    (∀ n ∈ x.nodes, n.isCoverable = true) ↔ ∀ n ∈ Leaf.nodesOf b.leaves, n.isCoverable = true := by
  cases h with
  | moveReg q r hc =>
    rcases hp with _ | _ | _ | hs | _ | _ | _
    rw [nodes, forall_mem_cons, forall_mem_append, hc.coverable hs, ← forall_mem_append]
    simp [Node.isCoverable, Expr.isPlace, Expr.nodes, Leaf.nodesOf, Leaf.expr]
  | move hd ha hc =>
    rcases hp with _ | _ | _ | _ | ⟨hq, hs⟩ | _ | _
    · exact absurd rfl (hd _)
    · -- only memory matches memory
      cases ha with
      | mem ha =>
        rw [nodes, forall_mem_cons, forall_mem_append, (Expr.Binds.mem ha).coverable (.mem hq),
          hc.coverable hs, ← forall_mem_append]
        simp [Node.isCoverable, Expr.isPlace, Leaf.nodesOf]
  | jump hc =>
    rcases hp with _ | _ | _ | _ | _ | hd | _
    rw [nodes, forall_mem_cons, hc.coverable hd]
    simp [Node.isCoverable]
  | cjump ha hc =>
    rcases hp with _ | _ | _ | _ | _ | _ | ⟨-, hl, hr⟩
    rw [nodes, forall_mem_cons, forall_mem_append, ha.coverable hl, hc.coverable hr,
      ← forall_mem_append]
    simp [Node.isCoverable, Leaf.nodesOf]
  | place => simp [nodes, Node.isCoverable, Leaf.nodesOf]

/-! ### Steps that decide -/

namespace Selection

open Pass

variable {α β : Type} {x : Run α} {p q : Prop} {ok : α → Prop} {k : Kit}

/-- A step returns something good if the condition holds, and otherwise fails for want of a
template. -/
def Decides (x : Run α) (p : Prop) (ok : α → Prop) : Prop :=
  ∀ st, Ends x st (fun a _ => p ∧ ok a) fun f => ¬ p ∧ ∃ e, f = .error e ∧ e.kind = .noTemplate

theorem Decides.congr (h : Decides x p ok) (hpq : p ↔ q) : Decides x q ok := by
  rwa [← propext hpq]

theorem Decides.bind {f : α → Run β} {ok' : β → Prop} (h : Decides x p ok)
    (hf : ∀ a, ok a → Decides (f a) q ok') : Decides (x >>= f) (p ∧ q) ok' := by
  intro st
  rw [ends_bind]
  refine (h st).mono ?_ ?_
  · rintro a st' ⟨hp, ha⟩
    refine (hf a ha st').mono ?_ ?_
    · rintro b - ⟨hq, hb⟩
      exact ⟨⟨hp, hq⟩, hb⟩
    · rintro e ⟨hq, he⟩
      exact ⟨fun h => hq h.2, he⟩
  · rintro e ⟨hp, he⟩
    exact ⟨fun h => hp h.1, he⟩

/-- A step that always returns decides nothing. -/
theorem Decides.after {f : α → Run β} {ok' : β → Prop} (h : Decides x True ok)
    (hf : ∀ a, ok a → Decides (f a) q ok') : Decides (x >>= f) q ok' :=
  (h.bind hf).congr (by rw [true_and])

theorem Decides.before {f : α → Run β} {ok' : β → Prop} (h : Decides x p ok)
    (hf : ∀ a, ok a → Decides (f a) True ok') : Decides (x >>= f) p ok' :=
  (h.bind hf).congr (by rw [and_true])

theorem decides_pure {a : α} (h : ok a) : Decides (pure a) True ok :=
  fun _ => ends_pure.mpr ⟨trivial, h⟩

theorem decides_fail {why : Unmatched} (hp : ¬ p) : Decides (fail (.unmatched why)) p ok :=
  fun _ => ends_fail.mpr ⟨hp, _, rfl, rfl⟩

theorem decides_freshReg : Decides freshReg True fun _ => True :=
  fun _ => ends_step.mpr ⟨trivial, trivial⟩

theorem decides_emit (c : Code) : Decides (emit c) True fun _ => True :=
  fun _ => ends_modify.mpr ⟨trivial, trivial⟩

/-- A node with a match goes on with it. -/
theorem decides_find {x : Node} {f : _ → Run β} {ok : β → Prop} (hx : x.head.isKnown = true)
    (hf : ∀ m (hm : k.catalog.find? x = some m), Decides (f ⟨m, hm⟩) p ok)
    (hnone : k.catalog.find? x = none → ¬ p) : Decides (find k x >>= f) p ok := by
  intro st
  rw [ends_bind]
  obtain hm | ⟨m, hm⟩ := Option.eq_none_or_eq_some (k.catalog.find? x)
  · rw [find_eq_fail hx hm]
    exact ends_fail.mpr ⟨hnone hm, _, rfl, rfl⟩
  · rw [find_eq_tell hx hm, ends_bind]
    exact ends_modify.mpr (ends_pure.mpr (hf m hm _))

/-! ### Complete kits -/

/-- There is a template for each class of nodes, they are all made for patterns and can be filled in,
and calls can pass any number of arguments. -/
structure Complete (k : Kit) : Prop where
  covers : k.catalog.Covers
  patterns : ∀ t ∈ k.catalog.templates, t.pattern.IsPattern
  tidy : ∀ t ∈ k.catalog.templates, ∃ names, t.Tidy k.catalog.reg? names
  calls : ∃ c, k.convention = some c ∧ ∀ args link, (c.place args link).isSome = true

/-- What is left over is decided. -/
def DecidesLeaves (k : Kit) (ls : List Leaf) : Prop :=
  ∀ kinds, List.Forall₂ Leaf.Suits kinds ls → (∀ n ∈ Leaf.nodesOf ls, n.isResolved = true) →
    Decides (selectLeaves k ls) (∀ n ∈ Leaf.nodesOf ls, n.isCoverable = true)
      (List.Forall₂ (Leaf.Settled fun _ => True) kinds)

section

variable (hk : Complete k)
include hk

/-- A node for which a template is found: its leaves are decided, and then what follows. -/
theorem Complete.decides_found {x : Node} {ns : List Node} {g : Template → List Leaf → Run β}
    {ok : β → Prop} (hns : ∀ n ∈ ns, n.isResolved = true) (hknown : x.head.isKnown = true)
    (hfind : (∀ n ∈ ns, n.isCoverable = true) → ∃ m, k.catalog.find? x = some m)
    (hbind : ∀ {fits} {p : Node} {b}, p.IsPattern → p.head = x.head → p.bind fits x = some b →
      Leaf.nodesOf b.leaves ⊆ ns ∧ ((∀ n ∈ ns, n.isCoverable = true) ↔
        ∀ n ∈ Leaf.nodesOf b.leaves, n.isCoverable = true))
    (hleaves : ∀ t b, k.catalog.find? x = some (t, b) → DecidesLeaves k b.leaves)
    (hg : ∀ t leaves, (∀ dst used, Decides (fill x t leaves dst used t.recipes) True fun _ => True) →
      Decides (g t leaves) q ok) :
    Decides (do
        let ⟨(t, b), _⟩ ← find k x
        let leaves ← selectLeaves k b.leaves
        g t leaves) ((∀ n ∈ ns, n.isCoverable = true) ∧ q) ok := by
  refine decides_find hknown ?_ fun hnone hcov => ?_
  · rintro ⟨t, b⟩ hm
    obtain ⟨ht, hhead, hb⟩ := Catalog.of_find? hm
    obtain ⟨hsub, hcov⟩ := hbind (hk.patterns t ht) hhead hb
    obtain ⟨names, htidy⟩ := hk.tidy t ht
    rw [hcov]
    refine (hleaves t b hm _ (Node.suits_bind hb) fun n hn => hns n (hsub hn)).bind
      fun leaves hsettled => hg t leaves fun dst used st => ?_
    obtain ⟨code, -, hfill⟩ := fill_isInstance htidy hhead hsettled dst used
    exact ends_of_eq (hfill st) ⟨trivial, trivial⟩
  · obtain ⟨m, hm⟩ := hfind hcov.1
    rw [hnone] at hm
    cases hm

omit hk in
theorem decides_passing {conv : Convention}
    (hplace : ∀ args link, (conv.place args link).isSome = true) {call : List (Option Reg) → Run Unit}
    (hcall : ∀ used, Decides (call used) True fun _ => True) (args : List (Option Reg))
    (link : Option Reg) :
    Decides (do
      let (code, used) ← Pass.orTrap (conv.place args link)
      emit code
      call used
      emit (conv.remove args)) True fun _ => True := by
  obtain ⟨⟨code, used⟩, hplaced⟩ := Option.isSome_iff_exists.mp (hplace args link)
  have hreturns : Pass.orTrap (conv.place args link) = (pure (code, used) : Run _) := by
    rw [hplaced]
    rfl
  rw [hreturns, pure_bind]
  refine (decides_emit code).after fun _ _ => ?_
  exact (hcall used).after fun _ _ => decides_emit _

end

/-! ### Trees -/

theorem settled_of_isResolved {kind : LeafKind} {l : Leaf} (h : Leaf.Suits kind l)
    (hglue : ∀ e, l ≠ .glue e) (hl : ∀ n ∈ l.expr.nodes, n.isResolved = true) :
    Leaf.Settled (fun _ => True) kind l := by
  refine Leaf.settled_of_suits h hglue fun r hr => ⟨?_, trivial⟩
  cases l with
  | temp q =>
    rw [mem_singleton.mp hr]
    exact hl _ (Expr.mem_nodes_self _)
  | int | addr => cases hr
  | glue e => exact absurd rfl (hglue e)

mutual

/-- Code is selected for an expression, or it has a node that can not be covered. -/
theorem selectExpr_decides (hk : Complete k) (x : Expr) (dst : Option Reg)
    (hx : ∀ n ∈ x.nodes, n.isResolved = true) :
    Decides (selectExpr k x dst) (∀ n ∈ x.nodes, n.isCoverable = true) fun _ => True := by
  match x with
  | .eseq s v =>
    rw [selectExpr]
    refine decides_fail fun hcov => ?_
    cases hcov _ (Expr.mem_nodes_self _)
  | .call f args link =>
    rw [Expr.nodes, forall_mem_cons, forall_mem_append, forall_mem_append] at hx
    have hnodes : (∀ n ∈ (Expr.call f args link).nodes, n.isCoverable = true) ↔
        (∀ n ∈ f.nodes, n.isCoverable = true) ∧ (∀ n ∈ Expr.nodesOf args, n.isCoverable = true) ∧
          ∀ n ∈ (if link.isPresent = true then link.nodes else []), n.isCoverable = true := by
      rw [Expr.nodes, forall_mem_cons, forall_mem_append, forall_mem_append]
      simp only [Node.isCoverable, true_and, and_assoc]
    rw [selectExpr_eq (by simp)]
    refine (hk.decides_found (x := .expr (.call f args link))
      (g := fun t leaves => finish k (.call f args link) t leaves dst) hx.2.1.1 rfl
      (fun _ => hk.covers.find?_expr (by simp [Node.head]) rfl)
      (fun hpattern hhead hb => ?_) (fun t b hm => ?_) fun t leaves hfill => ?_).congr hnodes.symm
    · cases hpattern with
      | operand hp => cases hp <;> cases hhead
      | call hp =>
        obtain ⟨c, hc, rfl⟩ := Option.map_eq_some_iff.mp hb
        have hc := Expr.binds_of_bind hc
        exact ⟨hc.nodesOf_subset, hc.coverable (b := c) hp⟩
      | place | moveTemp | moveMem | jump | cjump => cases hb
    · have := Catalog.glueSize_find?_lt hm
      exact selectLeaves_decides hk b.leaves
    · obtain ⟨conv, hconv, hplace⟩ := hk.calls
      have hreturns : convention k = pure conv := by
        rw [convention, hconv]
      rw [finish, hreturns, pure_bind]
      refine (selectArgs_decides hk args hx.2.1.2).bind fun rs _ => ?_
      split
      · rename_i hpresent
        rw [if_pos hpresent] at hx
        refine decides_freshReg.after fun r _ => ?_
        refine (selectExpr_decides hk link (some r) hx.2.2).before fun _ _ => ?_
        exact decides_passing hplace (hfill dst) rs (some r)
      · simpa using decides_passing hplace (hfill dst) rs none
  | .missing | .int v | .addr l | .temp r | .bin op l r pos | .mem a =>
    rw [selectExpr_eq (by simp)]
    refine (hk.decides_found hx (Node.isKnown_head_of_isResolved (hx _ (Expr.mem_nodes_self _)))
      (fun hcov => hk.covers.find?_expr (fun hhead => ?_)
        (Node.isKnown_head_of_isResolved (hx _ (Expr.mem_nodes_self _))))
      (fun hpattern hhead hb => ?_) (fun t b hm => ?_) fun t leaves hfill => hfill dst []).congr
        (by rw [and_true])
    · cases hhead <;> cases hcov _ (Expr.mem_nodes_self _)
    · cases hpattern with
      | operand hp =>
        have hb := Expr.binds_of_bind hb
        exact ⟨hb.nodesOf_subset, hb.coverable hp⟩
      | call => cases hhead
      | place | moveTemp | moveMem | jump | cjump => cases hb
    · have := Catalog.glueSize_find?_lt hm
      exact selectLeaves_decides hk b.leaves
termination_by (x.size, 0)
decreasing_by
  all_goals simp only [Prod.lex_def, Expr.size] at *
  all_goals omega

theorem selectLeaves_decides (hk : Complete k) (ls : List Leaf) : DecidesLeaves k ls := by
  intro kinds hsuits hls
  match ls with
  | [] =>
    cases hsuits
    rw [selectLeaves]
    exact (decides_pure .nil).congr (by simp [Leaf.nodesOf])
  | .glue e :: rest =>
    obtain ⟨kind, kinds, hkind, hrest, rfl⟩ := forall₂_cons_right_iff.mp hsuits
    rw [Leaf.nodesOf, flatMap_cons, forall_mem_append] at hls ⊢
    rw [selectLeaves]
    refine decides_freshReg.after fun r _ => ?_
    refine (selectExpr_decides hk e (some r) hls.1).bind fun _ _ => ?_
    refine (selectLeaves_decides hk rest kinds hrest hls.2).before fun ls' hsettled => ?_
    refine decides_pure (.cons ?_ hsettled)
    cases kind with
    | temp => exact trivial
    | int | addr => cases hkind
  | .temp r :: rest | .int v :: rest | .addr a :: rest =>
    obtain ⟨kind, kinds, hkind, hrest, rfl⟩ := forall₂_cons_right_iff.mp hsuits
    rw [Leaf.nodesOf, flatMap_cons, forall_mem_append] at hls ⊢
    rw [selectLeaves]
    · refine Decides.congr ((selectLeaves_decides hk rest kinds hrest hls.2).before
        fun ls' hsettled => ?_) (by simp [Leaf.expr, Expr.nodes, Node.isCoverable, Leaf.nodesOf])
      exact decides_pure (.cons (settled_of_isResolved hkind (by simp) hls.1) hsettled)
    · simp
termination_by (Leaf.glueSize ls, ls.length + 1)
decreasing_by
  all_goals simp [Prod.lex_def, Leaf.glueSize]
  all_goals omega

theorem selectArgs_decides (hk : Complete k) (args : List Expr)
    (hargs : ∀ n ∈ Expr.nodesOf args, n.isResolved = true) :
    Decides (selectArgs k args) (∀ n ∈ Expr.nodesOf args, n.isCoverable = true) fun _ => True := by
  match args with
  | [] =>
    rw [selectArgs]
    exact (decides_pure trivial).congr (by simp [Expr.nodesOf])
  | e :: rest =>
    rw [Expr.nodesOf, forall_mem_append] at hargs ⊢
    rw [selectArgs]
    refine decides_freshReg.after fun r _ => ?_
    refine (selectExpr_decides hk e (some r) hargs.1).bind fun _ _ => ?_
    exact (selectArgs_decides hk rest hargs.2).before fun _ _ => decides_pure trivial
termination_by (Expr.sizes args, args.length + 1)
decreasing_by
  all_goals simp only [Prod.lex_def, Expr.sizes, length_cons]
  all_goals omega

end

/-- Code is selected for a node of a statement, or it can not be covered. -/
theorem selectNode_decides (hk : Complete k) {x : Stmt} (hhead : (Node.stmt x).head ≠ .none)
    (hx : ∀ n ∈ x.nodes, n.isResolved = true) :
    Decides (selectNode k x) (∀ n ∈ x.nodes, n.isCoverable = true) fun _ => True := by
  have hknown := Node.isKnown_head_of_isResolved (hx _ x.mem_nodes_self)
  refine (hk.decides_found hx hknown (fun hcov => ?_) (fun {_ p _} hpattern _ hb => ?_)
    (fun t b _ => selectLeaves_decides hk b.leaves) fun t leaves hfill => hfill none []).congr
      (by rw [and_true])
  · refine hk.covers.find?_stmt hhead hknown fun d s hmove => ?_
    subst hmove
    exact hcov _ (Stmt.mem_nodes_self _)
  · cases p with
    | stmt p =>
      have hb := Stmt.binds_of_bind hb
      exact ⟨hb.nodesOf_subset, hb.coverable hpattern⟩
    | expr p => cases hb

mutual

/-- Code is selected for a statement, or it has a node that can not be covered. -/
theorem selectStmt_decides (hk : Complete k) (x : Stmt) (hx : ∀ n ∈ x.nodes, n.isResolved = true) :
    Decides (selectStmt k x) (∀ n ∈ x.nodes, n.isCoverable = true) fun _ => True := by
  match x with
  | .missing =>
    rw [selectStmt]
    refine decides_fail fun hcov => ?_
    cases hcov _ (Stmt.mem_nodes_self _)
  | .seq list =>
    rw [Stmt.nodes, forall_mem_cons] at hx ⊢
    rw [selectStmt]
    exact (selectStmts_decides hk list hx.2).congr (by simp [Node.isCoverable])
  | .eval e =>
    rw [Stmt.nodes, forall_mem_cons] at hx ⊢
    rw [selectStmt]
    exact (selectExpr_decides hk e none hx.2).congr (by simp [Node.isCoverable])
  | .move d s | .jump d ts | .cjump c l r t f | .place l =>
    rw [selectStmt]
    exact selectNode_decides hk (by simp [Node.head]) hx

theorem selectStmts_decides (hk : Complete k) (list : List Stmt)
    (hlist : ∀ n ∈ Stmt.nodesOf list, n.isResolved = true) :
    Decides (selectStmts k list) (∀ n ∈ Stmt.nodesOf list, n.isCoverable = true) fun _ => True := by
  match list with
  | [] =>
    rw [selectStmts]
    exact (decides_pure trivial).congr (by simp [Stmt.nodesOf])
  | s :: rest =>
    rw [Stmt.nodesOf, forall_mem_append] at hlist ⊢
    rw [selectStmts]
    exact (selectStmt_decides hk s hlist.1).bind fun _ _ => selectStmts_decides hk rest hlist.2

end

/-- Both machines have complete catalogs. -/
theorem complete_make (a : Arch) (s : Supply) : Complete (a.make s).1.kit where
  covers := Arch.covers a s
  patterns t ht := by
    obtain ⟨src, -, hmake⟩ := Arch.exists_source ht
    obtain ⟨hpattern, recipes, -, rfl⟩ := Template.make_eq_ok_iff.mp hmake
    exact Node.checkPattern_eq_ok_iff.mp hpattern
  tidy t ht := ⟨a.callerSaveNames, Arch.tidy_of_mem ht⟩
  calls := ⟨_, rfl, fun _ _ => rfl⟩

/-- On both machines code is selected for a statement exactly if all its nodes can be covered, and
what is refused is refused for want of a template. Operators and conditions are to be known, and
registers to be there. -/
theorem selectStmt_iff (a : Arch) (s : Supply) (x : Stmt) (hx : ∀ n ∈ x.nodes, n.isResolved = true)
    (st : State) :
    ((∃ st', selectStmt (a.make s).1.kit x st = .ok () st') ↔ ∀ n ∈ x.nodes, n.isCoverable = true) ∧
    ∀ f st', selectStmt (a.make s).1.kit x st = .error f st' →
      ∃ e, f = .error e ∧ e.kind = .noTemplate := by
  have hends := selectStmt_decides (complete_make a s) x hx st
  refine ⟨⟨?_, fun hcov => ?_⟩, fun f st' herror => (hends.of_error herror).2⟩
  · rintro ⟨st', hst'⟩
    exact (hends.of_ok hst').1
  · obtain ⟨_, st', hst', -⟩ := (hends.mono (fun _ _ => id) fun f hf => hf.1 hcov).returns
    exact ⟨st', hst'⟩

/-- A store of what a call returns for the given argument, at a distance that fits into no
instruction. -/
def farStore (arg : Expr) : Stmt :=
  .seq [.move (.mem (.bin .add (.temp (some ⟨0, 0, "p"⟩)) (.int Int64.maxValue) 0))
    (.call (.addr none) [arg] .missing)]

/-- The link of a call may be absent, its arguments may not. -/
theorem farStore_selected :
    ((∀ n ∈ (farStore (.int 1)).nodes, n.isResolved = true) ∧
      ∃ st', selectStmt (Arch.amd64.make {}).1.kit (farStore (.int 1)) {} = .ok () st') ∧
    ((∀ n ∈ (farStore .missing).nodes, n.isResolved = true) ∧
      ¬ ∃ st', selectStmt (Arch.arm64.make {}).1.kit (farStore .missing) {} = .ok () st') := by
  have hresolved : (∀ n ∈ (farStore (.int 1)).nodes, n.isResolved = true) ∧
      ∀ n ∈ (farStore .missing).nodes, n.isResolved = true := by decide
  refine ⟨⟨hresolved.1, (selectStmt_iff .amd64 {} _ hresolved.1 {}).1.mpr (by decide)⟩,
    hresolved.2, ?_⟩
  rw [(selectStmt_iff .arm64 {} _ hresolved.2 {}).1]
  decide

end Selection

end Codegen
