import Codegen.Proofs.Block.Division
import Codegen.Proofs.Block.Layout
import Codegen.Proofs.Tree.Shape

/-!
# The shape of arranged statements

What arranging makes of statements that can be selected and that jump only to labels they place: such
statements again, over the same registers, with each label placed once and every jump inside
(`arrangeStmt_arranges`). Labels that are new are fresh. What holds of every statement and does not
depend on labels holds of the arranged ones (`arrangeStmt_throughout`).
-/

namespace Codegen.Semantics

open Block Pass List

variable {P : Option Reg → Prop} {L : Option Label → Prop} {s s₁ s' : Supply} {xs list : List Stmt}
  {exit next : Option Label} {blocks : List Block} {e : Exit} {leave : List Stmt}

/-! ### Statements that can be selected -/

theorem mem_placed {l : Option Label} : l ∈ placed xs ↔ .place l ∈ xs := by
  induction xs with
  | nil => simp [placed, entries]
  | cons x xs ih =>
    by_cases hx : ∃ m, x = .place m
    · obtain ⟨m, rfl⟩ := hx
      rw [mem_cons, ← ih, Stmt.place.injEq]
      exact mem_cons
    · rw [placed, entries_cons fun m hm => hx ⟨m, hm⟩, ← placed, ih, mem_cons]
      refine ⟨Or.inr, fun h => h.resolve_left fun heq => hx ⟨l, heq.symm⟩⟩

theorem placed_of_selectable (h : ∀ x ∈ xs, x.Selectable P L) : placed xs = Stmt.placesAll xs := by
  induction xs with
  | nil => rfl
  | cons x xs ih =>
    rw [forall_mem_cons] at h
    have hcons (hplace : ∀ l, x ≠ .place l) (hx : x.places = []) :
        placed (x :: xs) = Stmt.placesAll (x :: xs) := by
      rw [placed, entries_cons hplace, ← placed, ih h.2, Stmt.placesAll, hx, nil_append]
    have hx := h.1
    cases x with
    | missing | seq => cases hx
    | place l => exact congrArg (l :: ·) (ih h.2)
    | move d e =>
      cases d with
      | temp r => exact hcons (by simp) hx.2.places_eq
      | mem a => exact hcons (by simp) (append_eq_nil_iff.mpr ⟨hx.1.places_eq, hx.2.places_eq⟩)
      | missing | int | addr | bin | call | eseq => cases hx
    | eval e => exact hcons (by simp) (Expr.Selectable.places_eq hx)
    | jump d targets => exact hcons (by simp) hx.1.places_eq
    | cjump c l r t f =>
      exact hcons (by simp) (append_eq_nil_iff.mpr ⟨hx.2.1.places_eq, hx.2.2.1.places_eq⟩)

/-- Statements that place each label once and jump only to labels that they place. -/
structure Closed (P : Option Reg → Prop) (s : Supply) (xs : List Stmt) : Prop where
  selectable : ∀ x ∈ xs, x.Selectable P s.KnowsLabel
  once : (Stmt.placesAll xs).Nodup
  inside : Stmt.goalsAll xs ⊆ Stmt.placesAll xs

theorem Closed.placed_eq (h : Closed P s xs) : placed xs = Stmt.placesAll xs :=
  placed_of_selectable h.selectable

/-- Such statements can be arranged. -/
theorem Closed.arrangeable (h : Closed P s xs) : Arrangeable s xs where
  present x hx := by
    have hsel := h.selectable x hx
    cases x with
    | missing => cases hsel
    | move | eval | jump | cjump | seq | place => rfl
  once := h.placed_eq ▸ h.once
  placed_known l hl := (h.selectable _ (mem_placed.mp hl)).2
  labels_known x hx e he l hl := by
    have hsel := h.selectable x hx
    cases x with
    | jump d targets =>
      cases he
      unfold Exit.labels at hl
      split at hl
      · rename_i heq
        cases heq
        obtain rfl | hl := mem_cons.mp hl
        · exact hsel.1
        · exact hsel.2 l hl
      · rename_i heq
        cases heq
        exact hsel.2 l hl
      · rename_i heq
        cases heq
    | cjump c a b t f =>
      cases he
      simp only [Exit.labels, mem_cons, not_mem_nil, or_false] at hl
      obtain rfl | rfl := hl
      · exact hsel.2.2.2.1
      · exact hsel.2.2.2.2
    | missing | move | eval | seq | place => cases he
  cond_known c l r t f hmem := (h.selectable _ hmem).1

/-! ### Leaving a block -/

/-- A jump over expressions that can be selected, to some of the given labels. -/
def LeadsInto (P : Option Reg → Prop) (ls : List (Option Label)) : Exit → Prop
  | .jump d targets => d.Selectable P (fun _ => True) ∧ ∀ l ∈ targets, l ∈ ls
  | .branch c l r t f => c.isKnown = true ∧ l.Selectable P (fun _ => True) ∧
      r.Selectable P (fun _ => True) ∧ t ∈ ls ∧ f ∈ ls

theorem isKnown_inverse {c c' : Cond} (h : c.inverse? = some c') : c'.isKnown = true := by
  cases c with
  | unknown => cases h
  | eq | ne | lt | le | gt | ge | ult | ule | ugt | uge =>
    cases h
    rfl

/-- The statements by which a block is left can be selected and jump to the same labels. -/
theorem Leave.leadsInto {ls : List (Option Label)} (h : Leave s s' next e leave) (he : LeadsInto P ls e) :
    ∀ y ∈ leave, y.Selectable P (fun _ => True) ∧ ∀ l ∈ y.dests, l ∈ ls := by
  cases h with
  | fall targets => exact forall_mem_nil _
  | jump d targets => exact forall_mem_singleton.mpr ⟨⟨he.1, fun _ _ => trivial⟩, he.2⟩
  | branch c l r t f =>
    obtain ⟨hc, hl, hr, ht, -⟩ := he
    exact forall_mem_singleton.mpr
      ⟨⟨hc, hl, hr, trivial, trivial⟩, forall_mem_singleton.mpr ht⟩
  | inverted hinv l r t f =>
    obtain ⟨-, hl, hr, -, hf⟩ := he
    exact forall_mem_singleton.mpr
      ⟨⟨isKnown_inverse hinv, hl, hr, trivial, trivial⟩, forall_mem_singleton.mpr hf⟩
  | detour hm c l r t f =>
    obtain ⟨hc, hl, hr, ht, hf⟩ := he
    simp only [forall_mem_cons, not_mem_nil, false_implies, implies_true, and_true]
    exact ⟨⟨⟨hc, hl, hr, trivial, trivial⟩, forall_mem_singleton.mpr ht⟩,
      ⟨⟨rfl, trivial⟩, forall_mem_nil _⟩, ⟨⟨trivial, fun _ _ => trivial⟩, forall_mem_singleton.mpr hf⟩⟩

theorem leadsInto_goto {ls : List (Option Label)} {l : Option Label} (hl : l ∈ ls) :
    LeadsInto P ls (.goto l) :=
  ⟨trivial, forall_mem_singleton.mpr hl⟩

theorem mem_of_mem_straight {x : Stmt} {r : List Stmt} (h : x ∈ (straight exit r).1) : x ∈ r := by
  induction r with
  | nil => cases h
  | cons y r ih =>
    rcases stmt_cases y with ⟨l, rfl⟩ | ⟨e, he⟩ | hy
    · cases h
    · rw [straight_cons_of_exit? he] at h
      cases h
    · rw [straight_cons_of_isInner hy] at h
      obtain rfl | h := mem_cons.mp h
      · exact mem_cons_self
      · exact mem_cons_of_mem _ (ih h)

theorem dests_of_isInner {x : Stmt} (hx : isInner x = true) : x.dests = [] := by
  cases x with
  | jump | cjump | place => cases hx
  | missing | move | eval | seq => rfl

/-! ### Arranging -/

/-- What arranging makes of statements. -/
structure Arranged (P : Option Reg → Prop) (s s' : Supply) (xs list : List Stmt) : Prop where
  selectable : ∀ y ∈ list, y.Selectable P (fun _ => True)
  once : (placed list).Nodup
  inside : ∀ y ∈ list, ∀ l ∈ y.dests, l ∈ placed list
  label_cases : ∀ l ∈ placed list, l ∈ placed xs ∨ ∃ m, l = some m ∧ s.MadeLabel s' m

/-- A label of the statements is placed where its block is. -/
theorem LaysOut.mem_placed_of_mem {l : Option Label} (h : LaysOut exit s₁ s' blocks list)
    (hcuts : Cuts exit s s₁ xs blocks) (hl : l ∈ placed xs) : l ∈ placed list := by
  obtain ⟨p, hp, rfl⟩ := mem_map.mp hl
  obtain ⟨leave, next, rest, -, hsuffix⟩ := h.block _ (hcuts.places p hp)
  exact mem_placed.mpr (hsuffix.subset mem_cons_self)

/-- A label that is placed was placed before or is fresh. -/
theorem LaysOut.label_of_mem_placed {m : Label} {s₂ : Supply} {l : Option Label}
    (h : LaysOut (some m) s₂ s' blocks list) (hcuts : Cuts (some m) s₁ s₂ xs blocks)
    (hm : s.MadeLabel s₁ m) (hs : s.MoreLabels s₁) (hs₁ : s₁.MoreLabels s₂) (hl : l ∈ placed list) :
    l ∈ placed xs ∨ ∃ m, l = some m ∧ s.MadeLabel s' m := by
  rcases h.label_cases l hl with rfl | hl | ⟨m', rfl, hm'⟩
  · exact Or.inr ⟨m, rfl, hm.mono (.refl s) (hs₁.trans h.more)⟩
  · refine (hcuts.label_of_mem hl).imp_right ?_
    rintro ⟨m', rfl, hm'⟩
    exact ⟨m', rfl, hm'.mono hs h.more⟩
  · exact Or.inr ⟨m', rfl, hm'.mono (hs.trans hs₁) (.refl _)⟩

/-- Blocks of statements that are closed leave to where something is placed. -/
theorem Closed.leadsInto {b : Block} (hxs : Closed P s xs) (hcuts : Cuts exit s₁ s' xs blocks)
    (hb : b ∈ blocks) {ls : List (Option Label)} (hexit : exit ∈ ls) (hls : ∀ l ∈ placed xs, l ∈ ls) :
    LeadsInto P ls b.exit := by
  obtain ⟨r, hr, heq, -⟩ := hcuts.stretch b hb
  rw [heq]
  show LeadsInto P ls (straight exit r).2
  rcases exit_straight_cases exit r with he | ⟨l, hl, he⟩ | ⟨x, hx, he⟩
  · rw [he]
    exact leadsInto_goto hexit
  · rw [he]
    exact leadsInto_goto (hls l (mem_placed.mpr (hr.subset (mem_placed.mp hl))))
  · have hsel : x.Selectable P (fun _ => True) :=
      (hxs.selectable x (hr.subset hx)).mono (fun _ => id) fun _ _ => trivial
    have hgoal : ∀ l ∈ x.goals, l ∈ ls := fun l hl =>
      hls l (hxs.placed_eq ▸ hxs.inside (Stmt.mem_goalsAll (hr.subset hx) hl))
    generalize (straight exit r).2 = e at he
    cases x with
    | jump d targets =>
      cases he
      exact ⟨hsel.1, fun l hl => hgoal l (mem_append_right _ hl)⟩
    | cjump c l r t f =>
      cases he
      exact ⟨hsel.1, hsel.2.1, hsel.2.2.1, hgoal t (by simp [Stmt.goals]), hgoal f (by simp [Stmt.goals])⟩
    | missing | move | eval | seq | place => cases he

/-- Blocks of closed statements, written out. -/
theorem LaysOut.arranged {m : Label} {s₂ : Supply} (h : LaysOut (some m) s₂ s' blocks list)
    (hxs : Closed P s xs) (hcuts : Cuts (some m) s₁ s₂ xs blocks) (hm : s.MadeLabel s₁ m)
    (hs : s.MoreLabels s₁) (hs₁ : s₁.MoreLabels s₂) : Arranged P s s' xs list := by
  have hplaced : ∀ l ∈ placed xs, l ∈ placed list := fun l hl => h.mem_placed_of_mem hcuts hl
  have hexit : some m ∈ placed list := mem_placed.mpr (h.last.subset mem_cons_self)
  have hall : ∀ y ∈ list, y.Selectable P (fun _ => True) ∧ ∀ l ∈ y.dests, l ∈ placed list := by
    intro y hy
    rcases h.mem y hy with rfl | ⟨b, hb, rfl | hy | ⟨next, leave, hleave, hy⟩⟩
    · exact ⟨⟨rfl, trivial⟩, nofun⟩
    · refine ⟨⟨?_, trivial⟩, nofun⟩
      rcases hcuts.label_of_mem (mem_map_of_mem hb) with hl | ⟨m', hm', -⟩
      · exact (hxs.selectable _ (mem_placed.mp hl)).1
      · rw [hm']
        rfl
    · obtain ⟨r, hr, heq, -⟩ := hcuts.stretch b hb
      rw [heq] at hy
      have hmem : y ∈ xs := hr.subset (mem_of_mem_straight hy)
      refine ⟨(hxs.selectable y hmem).mono (fun _ => id) fun _ _ => trivial, ?_⟩
      rw [dests_of_isInner (isInner_of_mem_straight hy)]
      nofun
    · exact hleave.leadsInto (hxs.leadsInto hcuts hb hexit hplaced) y hy
  exact ⟨fun y hy => (hall y hy).1, h.once, fun y hy => (hall y hy).2,
    fun l hl => h.label_of_mem_placed hcuts hm hs hs₁ hl⟩

/-! ### What holds of every statement -/

/-- What holds of every jump to a label and of every place, and of a conditional jump whatever its labels
and its condition are. -/
structure Robust (C : Stmt → Prop) : Prop where
  place : ∀ l, C (.place l)
  goto : ∀ l, C (.goto l)
  branch : ∀ {c l r t f} (c' : Cond) (t' f' : Option Label), C (.cjump c l r t f) → C (.cjump c' l r t' f')

/-- It holds of every statement of the block. -/
structure Throughout (C : Stmt → Prop) (b : Block) : Prop where
  body : ∀ x ∈ b.body, C x
  exit : ∃ x, x.exit? = some b.exit ∧ C x

section Robust

variable {C : Stmt → Prop} (hC : Robust C)

include hC

theorem Closes.throughout {rest : List Stmt} (h : Closes exit e xs rest) (hxs : ∀ x ∈ xs, C x) :
    ∃ x, x.exit? = some e ∧ C x := by
  cases h with
  | jump he => exact ⟨_, he, hxs _ mem_cons_self⟩
  | place | finish => exact ⟨.goto _, rfl, hC.goto _⟩

theorem Divides.throughout {fresh : Label → Prop} (h : Divides fresh exit xs blocks)
    (hxs : ∀ x ∈ xs, C x) : ∀ b ∈ blocks, Throughout C b := by
  induction h with
  | done => exact forall_mem_nil _
  | block _ _ hclose _ _ ih =>
    simp only [forall_mem_append] at hxs
    exact forall_mem_cons.mpr ⟨⟨hxs.1.1.2, hclose.throughout hC hxs.1.2⟩, ih hxs.2⟩

theorem BlocksOf.throughout {fresh : Label → Prop} (h : BlocksOf fresh exit xs blocks)
    (hxs : ∀ x ∈ xs, C x) : ∀ b ∈ blocks, Throughout C b := by
  cases xs with
  | nil =>
    obtain ⟨m, -, rfl⟩ := h
    exact forall_mem_singleton.mpr ⟨forall_mem_nil _, .goto exit, rfl, hC.goto exit⟩
  | cons x xs => exact Divides.throughout hC h hxs

theorem Leave.throughout {x : Stmt} (h : Leave s s' next e leave) (he : x.exit? = some e) (hx : C x) :
    ∀ y ∈ leave, C y := by
  cases x with
  | missing | move | eval | seq | place => cases he
  | jump d ts =>
    cases he
    cases h with
    | fall => exact forall_mem_nil _
    | jump => exact forall_mem_singleton.mpr hx
  | cjump c l r t f =>
    cases he
    cases h with
    | branch => exact forall_mem_singleton.mpr hx
    | inverted => exact forall_mem_singleton.mpr (hC.branch _ f t hx)
    | detour =>
      simp only [forall_mem_cons]
      exact ⟨hC.branch c t _ hx, hC.place _, hC.goto f, forall_mem_nil _⟩

theorem layout_throughout (hblocks : ∀ b ∈ blocks, Throughout C b) :
    Ends (layout exit blocks) s (fun list s' => s.Grows s' ∧ ∀ x ∈ list, C x) fun _ => True := by
  induction blocks generalizing s with
  | nil => exact ends_pure.mpr ⟨.refl s, forall_mem_singleton.mpr (hC.place exit)⟩
  | cons b blocks ih =>
    rw [forall_mem_cons] at hblocks
    obtain ⟨hbody, x, he, hx⟩ := hblocks.1
    rw [layout, ends_bind]
    refine exitStmts_ends.mono (fun leave s₁ h1 => ?_) fun _ _ => trivial
    refine (ih hblocks.2).bind fun list s₂ h2 => ends_pure.mpr ⟨h1.1.grows.trans h2.1, ?_⟩
    rw [forall_mem_append, forall_mem_append, forall_mem_cons]
    exact ⟨⟨⟨hC.place _, hbody⟩, h1.2.throughout hC he hx⟩, h2.2⟩

/-- What holds of all statements holds of all that are arranged, and only labels are handed out. -/
theorem arrangeStmt_throughout {x : Stmt} (hx : ∀ y ∈ x.flatten, C y) :
    Ends (arrangeStmt x) s (fun y s' => s.Grows s' ∧ ∃ list, y = .seq list ∧ ∀ z ∈ list, C z)
      fun _ => True := by
  rw [arrangeStmt]
  refine freshLabel_advances.bind fun m s₁ h1 => ?_
  rw [ends_bind]
  refine ofStmt_blocksOf.mono (fun blocks s₂ h2 => ?_) fun _ _ => trivial
  have hblocks := h2.2.throughout hC hx
  refine (layout_throughout hC fun b hb => hblocks b ((arrange_perm blocks).mem_iff.mp hb)).bind
    fun list s₃ h3 => ?_
  exact ends_pure.mpr ⟨(h1.2.trans h2.1).grows.trans h3.1, list, rfl, h3.2⟩

end Robust

/-- Closed statements are arranged, and stay closed. -/
theorem arrangeStmt_arranges {x : Stmt} (hx : Closed P s x.flatten) :
    Ends (arrangeStmt x) s (fun y s' => ∃ list, y = .seq list ∧ s.Advances s' ∧
      Arranged P s s' x.flatten list) fun _ => False := by
  have hends : Ends (arrangeStmt x) s (fun y s' => ∃ list, y = .seq list ∧ s.MoreLabels s' ∧
      Arranged P s s' x.flatten list) fun _ => False := by
    rw [arrangeStmt]
    refine ends_freshLabel.bind ?_
    rintro m s₁ ⟨hm, hs₁⟩
    refine (ofStmt_ends (hx.arrangeable.mono hs₁)).bind ?_
    rintro blocks s₂ ⟨hs₂, hcuts, -⟩
    have hcuts' := hcuts.perm (arrange_perm blocks)
    refine (layout_ends (hcuts'.writable hx.arrangeable hm hs₁ hs₂)).bind ?_
    intro list s₃ h₃
    exact ends_pure.mpr ⟨list, rfl, (hs₁.trans hs₂).trans h₃.more, h₃.arranged hx hcuts' hm hs₁ hs₂⟩
  have hgrows := arrangeStmt_throughout (C := fun _ => True) (s := s) (x := x)
    ⟨fun _ => trivial, fun _ => trivial, fun _ _ _ => id⟩ fun _ _ => trivial
  refine (hends.and hgrows).mono ?_ fun _ h => h.1
  rintro y s' ⟨⟨list, hy, hmore, h⟩, hgrows, -⟩
  exact ⟨list, hy, ⟨hgrows, hmore⟩, h⟩

end Codegen.Semantics
