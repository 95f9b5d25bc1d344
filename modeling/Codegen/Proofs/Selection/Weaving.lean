import Codegen.Proofs.Selection.Meaning
import Codegen.Proofs.Target.Room

/-!
# Weaving code

Code for a tree is woven from filled-in templates, one behind the other, and from calls with their
arguments around them. What holds of these and of code put together from code that it holds of, holds
of all code that is selected (`Weaves.expr`, `Weaves.node`). Whether selection may fail is
up to what is asked of the trees.
-/

namespace Codegen

open Pass Semantics List

/-! ### Templates that were found -/

theorem Node.suits_bind {fits : Int64 → Bool} {p x : Node} {b : Binding} (h : p.bind fits x = some b) :
    List.Forall₂ Leaf.Suits p.leafKinds b.leaves := by
  rcases p with p | p <;> rcases x with x | x
  · exact (Expr.binds_of_bind h).suits
  · cases h
  · cases h
  · exact (Stmt.binds_of_bind h).suits

namespace Selection

variable {t : Target} {st st' st'' : State}

theorem parts_of_find? {x : Expr} {tpl : Template} {b : Binding}
    (h : t.catalog.find? (.expr x) = some (tpl, b)) : ∀ l ∈ b.leaves, l.expr ∈ x.parts := by
  obtain ⟨-, -, hb⟩ := Catalog.of_find? h
  rcases hp : tpl.pattern with p | p <;> rw [hp] at hb
  · exact fun l => (Expr.binds_of_bind hb).mem_parts
  · cases hb

theorem exprs_of_find? {x : Stmt} {tpl : Template} {b : Binding}
    (h : t.catalog.find? (.stmt x) = some (tpl, b)) :
    ∀ l ∈ b.leaves, ∃ e ∈ x.exprs, l.expr ∈ e.parts := by
  obtain ⟨-, -, hb⟩ := Catalog.of_find? h
  rcases hp : tpl.pattern with p | p <;> rw [hp] at hb
  · cases hb
  · exact fun l => (Stmt.binds_of_bind hb).mem_parts

/-- The leaf is bound as the pattern says, not left over, and `P` holds of its register. -/
def Leaf.Holds (P : Option Reg → Prop) (kind : LeafKind) (l : Leaf) : Prop :=
  Leaf.Suits kind l ∧ (∀ e, l ≠ .glue e) ∧ ∀ u, l = .temp u → P u

theorem Leaf.Holds.mono {P P' : Option Reg → Prop} {kind : LeafKind} {l : Leaf}
    (h : Leaf.Holds P kind l) (hP : ∀ r, P r → P' r) : Leaf.Holds P' kind l :=
  ⟨h.1, h.2.1, fun u hu => hP u (h.2.2 u hu)⟩

/-- What is known when a template is filled in: it was found for the node, `P` holds of the registers
that it is filled in with, the first as it was found, and `W` holds of the register for the value. -/
structure Matched (t : Target) (P W : Option Reg → Prop) (x : Node) (tpl : Template)
    (leaves : List Leaf) (dst : Option Reg) : Prop where
  found : ∃ b, t.catalog.find? x = some (tpl, b) ∧
    ∀ u, b.leaves.head? = some (.temp u) → leaves.head? = some (.temp u)
  leaves : List.Forall₂ (Leaf.Holds P) tpl.pattern.leafKinds leaves
  dst : ∀ d, dst = some d → W (some d)

/-! ### Code that is appended -/

/-- Selection appended code of which `C` holds. -/
structure Extends (C : Supply → Code → Prop) (st st' : State) : Prop where
  grows : st.supply.Grows st'.supply
  code : ∃ c, st'.code = st.code ++ c ∧ C st'.supply c

theorem emit_ends {err : Failure → Prop} (c : Code) : Ends (emit c) st
    (fun _ st' => st'.supply = st.supply ∧ st'.code = st.code ++ c) err :=
  ends_modify.mpr ⟨rfl, rfl⟩

/-- What is said of code at a supply stays true as the supply grows, and of code put together. -/
structure Joins (C : Supply → Code → Prop) : Prop where
  nil : ∀ s, C s []
  mono : ∀ {s s' c}, s.Grows s' → C s c → C s' c
  append : ∀ {s c c'}, C s c → C s c' → C s (c ++ c')

section Extends

variable {C C' D : Supply → Code → Prop}

theorem Extends.of_same (hC : Joins C) (hs : st'.supply = st.supply) (hc : st'.code = st.code) :
    Extends C st st' :=
  ⟨hs ▸ .refl _, [], by rw [hc, append_nil], hC.nil _⟩

theorem Extends.append (h : Extends C st st') (h' : Extends C' st' st'')
    (hD : ∀ {c c'}, C st'.supply c → C' st''.supply c' → D st''.supply (c ++ c')) :
    Extends D st st'' := by
  obtain ⟨c, hc, hcode⟩ := h.code
  obtain ⟨c', hc', hcode'⟩ := h'.code
  refine ⟨h.grows.trans h'.grows, c ++ c', ?_, hD hcode hcode'⟩
  rw [hc', hc, append_assoc]

theorem Extends.trans (h : Extends C st st') (hC : Joins C) (h' : Extends C st' st'') :
    Extends C st st'' :=
  h.append h' fun hc hc' => hC.append (hC.mono h'.grows hc) hc'

end Extends

/-! ### Expressions -/

/-- The rest of the selection for an expression, when the leaves of its template are settled. -/
def finish (k : Kit) (x : Expr) (t : Template) (leaves : List Leaf) (dst : Option Reg) : Run Unit :=
  match x with
  | .call f args link => do
    let conv ← convention k
    let rs ← selectArgs k args
    let parent ← if link.isPresent then do
        let r ← freshReg
        selectExpr k link (some r)
        pure (some r)
      else pure none
    let (code, used) ← Pass.orTrap (conv.place rs parent)
    emit code
    fill (.expr (.call f args link)) t leaves dst used t.recipes
    emit (conv.remove rs)
  | x => fill (.expr x) t leaves dst [] t.recipes

theorem selectExpr_eq {k : Kit} {x : Expr} (hx : ∀ s v, x ≠ .eseq s v) (dst : Option Reg) :
    selectExpr k x dst = (do
      let ⟨(t, b), _⟩ ← find k (.expr x)
      let leaves ← selectLeaves k b.leaves
      finish k x t leaves dst) := by
  cases x with
  | eseq s v => exact absurd rfl (hx s v)
  | call f args link =>
    rw [selectExpr]
    rfl
  | missing | int | addr | temp | bin | mem =>
    rw [selectExpr]
    · rfl
    · simp
    · simp

/-- What is needed for `C` to hold of all code that is selected for expressions of which `A` holds, over
registers of which `P` holds, into ones of which `W` holds, unless the selection fails as `err` says.
`F` holds of filled-in templates, which may use registers that arguments are passed in. -/
structure Weaves (t : Target) (names : List String) (base : Supply) (err : Failure → Prop)
    (A : Supply → Expr → Prop) (P W : Supply → Option Reg → Prop)
    (F : Supply → Expr → List (Option Reg) → Code → Prop) (C : Supply → Code → Prop) : Prop where
  reads : base.Keeps P
  writes : base.Keeps W
  joins : Joins C
  mono : ∀ {s s' x}, s.Grows s' → A s x → A s' x
  part : ∀ {s x e}, A s x → e ∈ x.parts → A s e
  arg : ∀ {s f args link e}, A s (.call f args link) → e ∈ args → A s e
  link : ∀ {s f args link}, A s (.call f args link) → link.isPresent = true → A s link
  temp : ∀ {s r}, A s (.temp r) → P s r
  eseq : ∀ {s x v}, A s (.eseq x v) → err (.error (.unmatched (.notCanonical (.eseq x v))))
  find : ∀ {x} {st : State}, A st.supply x → Ends (find t.kit (.expr x)) st
    (fun _ st' => st'.supply = st.supply ∧ st'.code = st.code) err
  fill : ∀ {x tpl leaves dst used} {st : State},
    Matched t (P st.supply) (W st.supply) (.expr x) tpl leaves dst → (∀ r ∈ used, r ∈ t.named names) →
    Ends (fill (.expr x) tpl leaves dst used tpl.recipes) st (fun _ st' =>
      st'.supply = st.supply ∧ ∃ c, st'.code = st.code ++ c ∧ F st.supply x used c) err
  passing : ∀ r ∈ t.catalog.params ++ [some t.link], r ∈ t.named names
  plain : ∀ {s x c}, F s x [] c → C s c
  call : ∀ {s x args link c}, (∀ r ∈ args, P s r) → (link.isSome = true → P s link) →
    F s x (t.placeArgs args link).2 c → C s ((t.placeArgs args link).1 ++ c ++ t.removeArgs args)

namespace Weaves

variable {names : List String} {base : Supply} {err : Failure → Prop} {A : Supply → Expr → Prop}
  {P W : Supply → Option Reg → Prop} {F : Supply → Expr → List (Option Reg) → Code → Prop}
  {C : Supply → Code → Prop} (H : Weaves t names base err A P W F C)
include H

theorem filled {x : Expr} {tpl : Template} {leaves : List Leaf} {dst : Option Reg}
    (hm : Matched t (P st.supply) (W st.supply) (.expr x) tpl leaves dst) :
    Ends (Selection.fill (.expr x) tpl leaves dst [] tpl.recipes) st (fun _ => Extends C st) err := by
  refine (H.fill hm (forall_mem_nil _)).imp ?_
  rintro - st' ⟨hsupply, c, hcode, hfilled⟩
  exact ⟨hsupply ▸ .refl _, c, hcode, hsupply ▸ H.plain hfilled⟩

theorem called {x : Expr} {tpl : Template} {leaves : List Leaf} {dst : Option Reg}
    {args : List (Option Reg)} {link : Option Reg}
    (hm : Matched t (P st.supply) (W st.supply) (.expr x) tpl leaves dst)
    (hargs : ∀ r ∈ args, P st.supply r) (hlink : link.isSome = true → P st.supply link) :
    Ends (do
      let (code, used) ← Pass.orTrap (t.convention.place args link)
      emit code
      Selection.fill (.expr x) tpl leaves dst used tpl.recipes
      emit (t.convention.remove args)) st (fun _ => Extends C st) err := by
  rw [ends_bind]
  refine ends_orTrap ?_ nofun
  rintro _ ⟨⟩
  dsimp only
  refine (emit_ends _).bind ?_
  rintro - st₁ ⟨hsupply₁, hcode₁⟩
  have hused : ∀ r ∈ (t.placeArgs args link).2, r ∈ t.named names := by
    rw [Target.placeArgs_eq]
    exact fun r hr => H.passing r ((t.transfers_sublist args link).subset hr)
  rw [← hsupply₁] at hm hargs hlink
  refine (H.fill hm hused).bind ?_
  rintro - st₂ ⟨hsupply₂, c, hcode₂, hfilled⟩
  refine (emit_ends _).imp ?_
  rintro - st₃ ⟨hsupply₃, hcode₃⟩
  have hsupply : st₃.supply = st₁.supply := hsupply₃.trans hsupply₂
  refine ⟨hsupply ▸ hsupply₁ ▸ .refl _, _, ?_, hsupply ▸ H.call hargs hlink hfilled⟩
  rw [hcode₃, hcode₂, hcode₁, append_assoc, append_assoc, append_assoc]
  rfl

/-- An expression is computed into a fresh register. -/
theorem fresh {α : Type} {e : Expr} {g : Reg → Run α} {ok : α → State → Prop}
    (hs : base.Grows st.supply) (he : A st.supply e)
    (hsel : ∀ dst st, base.Grows st.supply → A st.supply e → (∀ d, dst = some d → W st.supply (some d)) →
      Ends (selectExpr t.kit e dst) st (fun _ => Extends C st) err)
    (hg : ∀ r st', Extends C st st' → P st'.supply (some r) → Ends (g r) st' ok err) :
    Ends (do let r ← freshReg; selectExpr t.kit e (some r); g r) st ok err := by
  have hgrows := st.supply.grows_freshReg
  refine ends_bind.mpr (ends_step.mpr ?_)
  refine (hsel _ { st with supply := st.supply.freshReg.2 } (hs.trans hgrows) (H.mono hgrows he) ?_).bind
    fun _ st₁ h₁ => hg _ st₁ ⟨hgrows.trans h₁.grows, h₁.code⟩ ?_
  · rintro _ ⟨⟩
    exact H.writes.fresh _ hs
  · exact H.reads.mono h₁.grows (H.reads.fresh _ hs)

mutual

theorem expr (x : Expr) (dst : Option Reg) (st : State) (hs : base.Grows st.supply)
    (hx : A st.supply x) (hdst : ∀ d, dst = some d → W st.supply (some d)) :
    Ends (selectExpr t.kit x dst) st (fun _ => Extends C st) err := by
  by_cases hseq : ∃ y v, x = .eseq y v
  · obtain ⟨y, v, hxeq⟩ := hseq
    rw [hxeq] at hx ⊢
    rw [selectExpr]
    exact ends_fail.mpr (H.eseq hx)
  rw [selectExpr_eq fun y v h => hseq ⟨y, v, h⟩]
  refine (H.find hx).bind ?_
  rintro ⟨⟨tpl, b⟩, hfind⟩ st₁ ⟨hsupply₁, hcode₁⟩
  have := Catalog.glueSize_find?_lt hfind
  have h₁ : Extends C st st₁ := .of_same H.joins hsupply₁ hcode₁
  refine (leaves _ b.leaves st₁ (hs.trans h₁.grows)
    (Node.suits_bind (Catalog.of_find? hfind).2.2) fun l hl =>
      H.mono h₁.grows (H.part hx (parts_of_find? hfind l hl))).bind ?_
  rintro bound st₂ ⟨h₂, hleaves, hfirst⟩
  have h₂ := h₁.trans H.joins h₂
  have hmatched {s : Supply} (hs : st₂.supply.Grows s) :
      Matched t (P s) (W s) (.expr x) tpl bound dst :=
    ⟨⟨b, hfind, hfirst⟩, hleaves.imp fun _ _ h => h.mono fun _ => H.reads.mono hs,
      fun d hd => H.writes.mono (h₂.grows.trans hs) (hdst d hd)⟩
  have hs₂ := hs.trans h₂.grows
  match x with
  | .call f as link =>
    rw [finish, ends_bind]
    refine ends_pure.mpr ?_
    refine (args as st₂ hs₂ fun e he => H.mono h₂.grows (H.arg hx he)).bind ?_
    rintro rs st₃ ⟨h₃, hargs⟩
    have h₃' := h₂.trans H.joins h₃
    have hs₃ := hs.trans h₃'.grows
    dsimp only
    split
    · rename_i hlink
      refine H.fresh hs₃ (H.mono h₃'.grows (H.link hx hlink)) (expr link) fun r st₄ h₄ hr => ?_
      rw [ends_bind]
      refine ends_pure.mpr ((H.called (hmatched (h₃.grows.trans h₄.grows))
        (fun r hr => H.reads.mono h₄.grows (hargs r hr)) fun _ => hr).imp fun _ st₅ h₅ => ?_)
      exact (h₃'.trans H.joins h₄).trans H.joins h₅
    · rw [ends_bind]
      refine ends_pure.mpr ((H.called (hmatched h₃.grows) hargs (by simp)).imp fun _ st₅ h₅ => ?_)
      exact h₃'.trans H.joins h₅
  | .missing | .int v | .addr l | .temp r | .bin op l r pos | .mem a | .eseq y v =>
    exact (H.filled (hmatched (.refl _))).imp fun _ st₃ h₃ => h₂.trans H.joins h₃
termination_by (x.size, 0)
decreasing_by
  all_goals simp only [Prod.lex_def, Expr.size] at *
  all_goals omega

/-- What is left over is computed into fresh registers. -/
theorem leaves (kinds : List LeafKind) (ls : List Leaf) (st : State)
    (hs : base.Grows st.supply) (hsuits : List.Forall₂ Leaf.Suits kinds ls)
    (hls : ∀ l ∈ ls, A st.supply l.expr) :
    Ends (selectLeaves t.kit ls) st (fun ls' st' => Extends C st st' ∧
      List.Forall₂ (Leaf.Holds (P st'.supply)) kinds ls' ∧
      ∀ u, ls.head? = some (.temp u) → ls'.head? = some (.temp u)) err := by
  match ls with
  | [] =>
    cases hsuits
    rw [selectLeaves]
    exact ends_pure.mpr ⟨.of_same H.joins rfl rfl, .nil, nofun⟩
  | .glue e :: rest =>
    rw [forall_mem_cons] at hls
    obtain ⟨kind, kinds, hkind, hrest, rfl⟩ := forall₂_cons_right_iff.mp hsuits
    rw [selectLeaves]
    refine H.fresh hs hls.1 (expr e) fun r st₁ h₁ hr => ?_
    refine (leaves kinds rest st₁ (hs.trans h₁.grows) hrest fun l hl =>
      H.mono h₁.grows (hls.2 l hl)).bind ?_
    rintro ls' st₂ ⟨h₂, hleaves, -⟩
    refine ends_pure.mpr ⟨h₁.trans H.joins h₂, .cons ⟨?_, nofun, ?_⟩ hleaves, nofun⟩
    · cases kind with
      | temp => trivial
      | int | addr => cases hkind
    · rintro _ ⟨⟩
      exact H.reads.mono h₂.grows hr
  | .temp r :: rest | .int v :: rest | .addr a :: rest =>
    rw [forall_mem_cons] at hls
    obtain ⟨kind, kinds, hkind, hrest, rfl⟩ := forall₂_cons_right_iff.mp hsuits
    rw [selectLeaves]
    · refine (leaves kinds rest st hs hrest hls.2).bind ?_
      rintro ls' st₂ ⟨h₂, hleaves, -⟩
      refine ends_pure.mpr ⟨h₂, .cons ⟨hkind, nofun, fun u hu => ?_⟩ hleaves, fun u => id⟩
      cases hu <;> exact H.reads.mono h₂.grows (H.temp hls.1)
    · nofun
termination_by (Leaf.glueSize ls, ls.length + 1)
decreasing_by
  all_goals simp [Prod.lex_def, Leaf.glueSize]
  all_goals omega

/-- Arguments are computed into fresh registers. -/
theorem args (as : List Expr) (st : State) (hs : base.Grows st.supply)
    (hargs : ∀ e ∈ as, A st.supply e) :
    Ends (selectArgs t.kit as) st (fun rs st' => Extends C st st' ∧ ∀ r ∈ rs, P st'.supply r)
      err := by
  match as with
  | [] =>
    rw [selectArgs]
    exact ends_pure.mpr ⟨.of_same H.joins rfl rfl, nofun⟩
  | e :: rest =>
    rw [forall_mem_cons] at hargs
    rw [selectArgs]
    refine H.fresh hs hargs.1 (expr e) fun r st₁ h₁ hr => ?_
    refine (args rest st₁ (hs.trans h₁.grows) fun e he => H.mono h₁.grows (hargs.2 e he)).bind ?_
    rintro rs st₂ ⟨h₂, hrs⟩
    exact ends_pure.mpr ⟨h₁.trans H.joins h₂, forall_mem_cons.mpr ⟨H.reads.mono h₂.grows hr, hrs⟩⟩
termination_by (Expr.sizes as, as.length + 1)
decreasing_by
  all_goals simp only [Prod.lex_def, Expr.sizes, length_cons]
  all_goals omega

end

/-! ### Statements -/

/-- A statement that is no sequence and not evaluated for effect only. -/
theorem node {x : Stmt} {D : Supply → Code → Prop}
    (hD : ∀ {s s' c c'}, s.Grows s' → C s c → D s' c' → D s' (c ++ c')) (hs : base.Grows st.supply)
    (hx : ∀ e ∈ x.exprs, A st.supply e) (hfind : Ends (Selection.find t.kit (.stmt x)) st
      (fun _ st' => st'.supply = st.supply ∧ st'.code = st.code) err)
    (hfill : ∀ tpl leaves (st' : State), st.supply.Grows st'.supply →
      Matched t (P st'.supply) (W st'.supply) (.stmt x) tpl leaves none →
      Ends (Selection.fill (.stmt x) tpl leaves none [] tpl.recipes) st' (fun _ st'' =>
        st''.supply = st'.supply ∧ ∃ c, st''.code = st'.code ++ c ∧ D st'.supply c) err) :
    Ends (selectNode t.kit x) st (fun _ => Extends D st) err := by
  rw [selectNode]
  refine hfind.bind ?_
  rintro ⟨⟨tpl, b⟩, hfind⟩ st₁ ⟨hsupply₁, hcode₁⟩
  have h₁ : Extends C st st₁ := .of_same H.joins hsupply₁ hcode₁
  refine (H.leaves _ b.leaves st₁ (hs.trans h₁.grows)
    (Node.suits_bind (Catalog.of_find? hfind).2.2) fun l hl => ?_).bind ?_
  · obtain ⟨e, he, hle⟩ := exprs_of_find? hfind l hl
    exact H.mono h₁.grows (H.part (hx e he) hle)
  rintro bound st₂ ⟨h₂, hleaves, hfirst⟩
  have h₂ := h₁.trans H.joins h₂
  refine (hfill tpl bound st₂ h₂.grows ⟨⟨b, hfind, hfirst⟩, hleaves, by simp⟩).imp ?_
  rintro - st₃ ⟨hsupply₃, c, hcode₃, hc⟩
  have h₃ : Extends D st₂ st₃ := ⟨hsupply₃ ▸ .refl _, c, hcode₃, hsupply₃ ▸ hc⟩
  exact h₂.append h₃ fun hc hc' => hD h₃.grows hc hc'

end Weaves

end Selection

end Codegen
