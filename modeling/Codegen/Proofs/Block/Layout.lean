import Codegen.Block.Layout
import Codegen.Proofs.Block.Cut
import Codegen.Proofs.Block.Trace

/-!
# Arranged statements run as before

Blocks that are written out one after the other run as the blocks do, in whatever order they are
(`LaysOut.simulates`): a jump that is left out would lead to the place that follows, a condition that
is turned round exchanges the labels, and a detour goes on to the false label. With the cut into
blocks before it, arranging a statement preserves its runs (`arrangeStmt_preserves`).
-/

namespace Codegen.Semantics

open Block Pass List

variable {Mem : Type*} {W : World Mem} {exit next : Option Label} {s s₁ s' : Supply}
  {blocks : List Block} {list : List Stmt} {e : Exit} {leave : List Stmt}

/-! ### Leaving a block -/

/-- The statements by which a block is left in front of the place of `next`. -/
inductive Leave (s s' : Supply) (next : Option Label) : Exit → List Stmt → Prop
  | fall (targets : List (Option Label)) : Leave s s' next (.jump (.addr next) targets) []
  | jump (d : Expr) (targets : List (Option Label)) :
    Leave s s' next (.jump d targets) [.jump d targets]
  | branch (c : Cond) (l r : Expr) (t f : Option Label) :
    Leave s s' next (.branch c l r t f) [.cjump c l r t f]
  | inverted {c c' : Cond} (h : c.inverse? = some c') (l r : Expr) (t f : Option Label) :
    Leave s s' next (.branch c l r t f) [.cjump c' l r f t]
  | detour {m : Label} (h : s.MadeLabel s' m) (c : Cond) (l r : Expr) (t f : Option Label) :
    Leave s s' next (.branch c l r t f) [.cjump c l r t (some m), .place (some m), .goto f]

theorem Leave.mono (h : Leave s₁ s' next e leave) (hs : s.MoreLabels s₁) :
    Leave s s' next e leave := by
  cases h with
  | fall targets => exact .fall targets
  | jump d targets => exact .jump d targets
  | branch c l r t f => exact .branch c l r t f
  | inverted h l r t f => exact .inverted h l r t f
  | detour h c l r t f => exact .detour (h.mono hs (.refl s')) c l r t f

theorem Leave.extend {s₂ : Supply} (h : Leave s s₁ next e leave) (hs : s₁.MoreLabels s₂) :
    Leave s s₂ next e leave := by
  cases h with
  | fall targets => exact .fall targets
  | jump d targets => exact .jump d targets
  | branch c l r t f => exact .branch c l r t f
  | inverted h l r t f => exact .inverted h l r t f
  | detour h c l r t f => exact .detour (h.mono (.refl s) hs) c l r t f

/-- The labels that are placed on the way out are fresh. -/
theorem Leave.placed_cases (h : Leave s s' next e leave) :
    placed leave = [] ∨ ∃ m, s.MadeLabel s' m ∧ placed leave = [some m] := by
  cases h with
  | fall | jump | branch | inverted => exact Or.inl rfl
  | detour h => exact Or.inr ⟨_, h, rfl⟩

/-- The condition of a jump can be turned round. -/
def Invertible : Exit → Prop
  | .jump .. => True
  | .branch c .. => c.isKnown = true

theorem exitStmts_ends : Ends (exitStmts next e) s
    (fun leave s' => s.Advances s' ∧ Leave s s' next e leave) fun _ => ¬ Invertible e := by
  unfold exitStmts
  split
  · split
    · rename_i l
      split
      · rename_i hl
        subst hl
        exact ends_pure.mpr ⟨.refl s, .fall _⟩
      · exact ends_pure.mpr ⟨.refl s, .jump _ _⟩
    · exact ends_pure.mpr ⟨.refl s, .jump _ _⟩
  · rename_i c l r t f
    split
    · exact ends_pure.mpr ⟨.refl s, .branch c l r t f⟩
    · split
      · rw [ends_bind]
        refine ends_orTrap (fun c' hc' => ?_) fun hc hinv => ?_
        · exact ends_pure.mpr ⟨.refl s, .inverted hc' l r t f⟩
        · cases c with
          | unknown => cases hinv
          | eq | ne | lt | le | gt | ge | ult | ule | ugt | uge => cases hc
      · exact freshLabel_advances.bind fun m s₁ h1 => ends_pure.mpr ⟨h1.2, .detour h1.1 c l r t f⟩

theorem holds_inverse {c c' : Cond} (h : c.inverse? = some c') (x y : Int64) :
    W.holds c' x y = !W.holds c x y := by
  unfold Interp.holds
  cases c with
  | unknown => cases h
  | eq | ne | lt | le | gt | ge | ult | ule | ugt | uge =>
    cases h
    simp [Cond.holds?, ← decide_not, bne]

/-! ### Writing blocks out -/

theorem placed_append (xs ys : List Stmt) : placed (xs ++ ys) = placed xs ++ placed ys := by
  rw [placed, entries_append, map_append, map_map]
  rfl

theorem placed_of_isInner {xs : List Stmt} (h : ∀ x ∈ xs, isInner x = true) : placed xs = [] := by
  induction xs with
  | nil => rfl
  | cons x xs ih =>
    have hx := h x mem_cons_self
    rw [placed, entries_cons, ← placed, ih fun y hy => h y (mem_cons_of_mem x hy)]
    rintro l rfl
    cases hx

/-- The label that follows the blocks before these. -/
def firstLabel (exit : Option Label) (blocks : List Block) : Option Label :=
  (blocks.head?.map (·.label)).getD exit

/-- What blocks have to be like to be written out. -/
structure Writable (exit : Option Label) (s : Supply) (blocks : List Block) : Prop where
  once : (blocks.map (·.label)).Nodup
  exit_not_mem : exit ∉ blocks.map (·.label)
  label_known : ∀ l ∈ blocks.map (·.label), s.KnowsLabel l
  exit_known : s.KnowsLabel exit
  inner : ∀ b ∈ blocks, ∀ x ∈ b.body, isInner x = true
  labels_known : ∀ b ∈ blocks, ∀ l ∈ Exit.labels b.exit, s.KnowsLabel l
  invertible : ∀ b ∈ blocks, Invertible b.exit

theorem Writable.mono (h : Writable exit s blocks) (hs : s.MoreLabels s') :
    Writable exit s' blocks where
  once := h.once
  exit_not_mem := h.exit_not_mem
  label_known l hl := (h.label_known l hl).mono hs
  exit_known := h.exit_known.mono hs
  inner := h.inner
  labels_known b hb l hl := (h.labels_known b hb l hl).mono hs
  invertible := h.invertible

/-- Blocks written out one after the other. -/
structure LaysOut (exit : Option Label) (s s' : Supply) (blocks : List Block) (list : List Stmt) :
    Prop where
  more : s.MoreLabels s'
  head : ∃ rest, list = .place (firstLabel exit blocks) :: rest
  block : ∀ b ∈ blocks, ∃ leave next rest, Leave s s' next b.exit leave ∧
    .place b.label :: (b.body ++ (leave ++ .place next :: rest)) <:+ list
  last : [.place exit] <:+ list
  once : (placed list).Nodup
  label_cases : ∀ l ∈ placed list, l = exit ∨ l ∈ blocks.map (·.label) ∨
    ∃ m, l = some m ∧ s.MadeLabel s' m
  mem : ∀ y ∈ list, y = .place exit ∨ ∃ b ∈ blocks, y = .place b.label ∨ y ∈ b.body ∨
    ∃ next leave, Leave s s' next b.exit leave ∧ y ∈ leave

theorem LaysOut.nil (exit : Option Label) (s : Supply) : LaysOut exit s s [] [.place exit] :=
  ⟨.refl s, ⟨[], rfl⟩, forall_mem_nil _, suffix_rfl, by simp [placed, entries],
    fun _ hl => Or.inl (mem_singleton.mp hl), fun _ hy => Or.inl (mem_singleton.mp hy)⟩

theorem LaysOut.cons {b : Block} (h : LaysOut exit s₁ s' blocks list)
    (hb : Writable exit s (b :: blocks)) (hs : s.MoreLabels s₁)
    (hleave : Leave s s₁ (firstLabel exit blocks) b.exit leave) :
    LaysOut exit s s' (b :: blocks) (.place b.label :: b.body ++ leave ++ list) := by
  obtain ⟨rest, hrest⟩ := h.head
  have hsuffix : list <:+ .place b.label :: b.body ++ leave ++ list := suffix_append _ _
  have hplaced : placed (.place b.label :: b.body ++ leave ++ list) =
      b.label :: (placed leave ++ placed list) := by
    rw [cons_append, cons_append]
    show b.label :: placed (b.body ++ leave ++ list) = _
    rw [placed_append, placed_append, placed_of_isInner (hb.inner b mem_cons_self)]
    rfl
  have hnot : b.label ∉ blocks.map (·.label) := (nodup_cons.mp hb.once).1
  have hknown : s.KnowsLabel b.label := hb.label_known _ mem_cons_self
  refine ⟨hs.trans h.more, ⟨_, rfl⟩, forall_mem_cons.mpr ⟨?_, fun b' hb' => ?_⟩,
    h.last.trans hsuffix, ?_, ?_, ?_⟩
  · refine ⟨leave, _, rest, hleave.extend h.more, ?_⟩
    rw [hrest, cons_append, cons_append, append_assoc]
  · obtain ⟨leave', next, rest', h1, h2⟩ := h.block b' hb'
    exact ⟨leave', next, rest', h1.mono hs, h2.trans hsuffix⟩
  · -- the label of the block, a fresh one, and those of the rest
    have hout : ∀ l, s₁.KnowsLabel l → l ≠ exit → l ∉ blocks.map (·.label) → l ∉ placed list := by
      intro l hl h1 h2 hmem
      rcases h.label_cases l hmem with rfl | hmem | ⟨m, rfl, hm⟩
      · exact h1 rfl
      · exact h2 hmem
      · exact hl.ne hm rfl
    have hlabel := hout b.label (hknown.mono hs)
      (fun hexit => hb.exit_not_mem (hexit ▸ mem_cons_self)) hnot
    rw [hplaced, nodup_cons]
    rcases hleave.placed_cases with hnone | ⟨m, hm, hone⟩
    · rw [hnone]
      exact ⟨hlabel, h.once⟩
    · have hfresh := hout (some m) hm.knowsLabel (fun hexit => hb.exit_known.ne hm hexit.symm)
        fun hmem => (hb.label_known _ (mem_cons_of_mem _ hmem)).ne hm rfl
      rw [hone]
      refine ⟨fun hmem => ?_, nodup_cons.mpr ⟨hfresh, h.once⟩⟩
      rcases mem_cons.mp hmem with hmem | hmem
      · exact hknown.ne hm hmem
      · exact hlabel hmem
  · intro l hl
    rw [hplaced, mem_cons, mem_append] at hl
    rcases hl with rfl | hl | hl
    · exact Or.inr (Or.inl mem_cons_self)
    · rcases hleave.placed_cases with hnone | ⟨m, hm, hone⟩
      · rw [hnone] at hl
        cases hl
      · rw [hone] at hl
        exact Or.inr (Or.inr ⟨m, mem_singleton.mp hl, hm.mono (.refl s) h.more⟩)
    · rcases h.label_cases l hl with hexit | hmem | ⟨m, hm, hmade⟩
      · exact Or.inl hexit
      · exact Or.inr (Or.inl (mem_cons_of_mem _ hmem))
      · exact Or.inr (Or.inr ⟨m, hm, hmade.mono hs (.refl s')⟩)
  · intro y hy
    rw [mem_append, mem_append, mem_cons] at hy
    rcases hy with ((hy | hy) | hy) | hy
    · exact Or.inr ⟨b, mem_cons_self, Or.inl hy⟩
    · exact Or.inr ⟨b, mem_cons_self, Or.inr (Or.inl hy)⟩
    · exact Or.inr ⟨b, mem_cons_self, Or.inr (Or.inr ⟨_, leave, hleave.extend h.more, hy⟩)⟩
    · refine (h.mem y hy).imp_right ?_
      rintro ⟨b', hb', hy⟩
      refine ⟨b', mem_cons_of_mem _ hb', hy.imp_right (Or.imp_right ?_)⟩
      rintro ⟨next, leave', hleave', hy⟩
      exact ⟨next, leave', hleave'.mono hs, hy⟩

theorem layout_ends (hb : Writable exit s blocks) :
    Ends (layout exit blocks) s (fun list s' => LaysOut exit s s' blocks list) fun _ => False := by
  induction blocks generalizing s with
  | nil => exact ends_pure.mpr (.nil exit s)
  | cons b blocks ih =>
    have htail : Writable exit s blocks :=
      ⟨(nodup_cons.mp hb.once).2, fun h => hb.exit_not_mem (mem_cons_of_mem _ h),
        fun l hl => hb.label_known l (mem_cons_of_mem _ hl), hb.exit_known,
        fun b' hb' => hb.inner b' (mem_cons_of_mem _ hb'),
        fun b' hb' => hb.labels_known b' (mem_cons_of_mem _ hb'),
        fun b' hb' => hb.invertible b' (mem_cons_of_mem _ hb')⟩
    rw [layout, ends_bind]
    refine exitStmts_ends.mono (fun leave s₁ h1 => ?_) fun _ h => h (hb.invertible b mem_cons_self)
    refine (ih (htail.mono h1.1.more)).bind fun list s₂ h2 => ?_
    exact ends_pure.mpr (h2.cons hb h1.1.more h1.2)

/-! ### Running -/

/-- Where blocks and what is written out are at the same point. -/
def AtLayout (s s' : Supply) (list : List Stmt) (c : BlockConfig Mem) (d : Config Mem) : Prop :=
  d.store = c.store ∧ (∀ x ∈ c.body, isInner x = true) ∧
    (∀ l ∈ Exit.labels c.exit, s.KnowsLabel l) ∧
    ∃ leave next rest, d.rest = c.body ++ (leave ++ .place next :: rest) ∧
      Leave s s' next c.exit leave ∧ leave ++ .place next :: rest <:+ list

theorem target_inverse {c c' : Cond} (h : c.inverse? = some c') (l r : Expr) (t f : Option Label)
    (σ : Store Mem) : target W (.branch c' l r f t) σ = target W (.branch c l r t f) σ := by
  unfold target
  dsimp only
  rw [holds_inverse h]
  cases W.holds c _ _ <;> rfl

/-- Behind a block, control comes to where its jump leads. -/
theorem Leave.departs {rest : List Stmt} (h : Leave s s' next e leave)
    (honce : (placed list).Nodup) (hsuffix : leave ++ .place next :: rest <:+ list)
    (σ : Store Mem) :
    ∃ n d, Move.Reaches (listStep W list) n ⟨leave ++ .place next :: rest, σ⟩ [] d ∧
      listStep W list d = depart list (target W e σ) := by
  cases h with
  | fall targets =>
    refine ⟨0, _, .refl _, ?_⟩
    exact (goTo_of_mem honce (mem_entries_of_suffix hsuffix)).symm
  | jump d targets => exact ⟨0, _, .refl _, rfl⟩
  | branch c l r t f => exact ⟨0, _, .refl _, rfl⟩
  | inverted hc l r t f =>
    refine ⟨0, _, .refl _, ?_⟩
    rw [← target_inverse hc]
    rfl
  | @detour m hm c l r t f =>
    have hplace : .place (some m) :: .goto f :: .place next :: rest <:+ list :=
      (suffix_cons _ _).trans hsuffix
    have hgo := fun τ : Store Mem => goTo_of_mem (σ := τ) honce (mem_entries_of_suffix hplace)
    have hstep : listStep W list
        ⟨[.cjump c l r t (some m), .place (some m), .goto f] ++ .place next :: rest, σ⟩ =
        depart list (target W (.branch c l r t (some m)) σ) := rfl
    unfold target at hstep ⊢
    dsimp only at hstep ⊢
    cases hholds : W.holds c (eval W.toInterp l σ).1
        (eval W.toInterp r (eval W.toInterp l σ).2).1 with
    | true =>
      rw [hholds] at hstep
      exact ⟨0, _, .refl _, hstep⟩
    | false =>
      rw [hholds] at hstep
      have hstep' := hstep.trans (hgo _)
      exact ⟨1, _, .one hstep', rfl⟩

namespace LaysOut

variable (h : LaysOut exit s s' blocks list)
include h

theorem at_block {b : Block} {σ : Store Mem}
    (hw : Writable exit s blocks) (hb : b ∈ blocks) :
    ∃ rest, (b.label, rest) ∈ entries list ∧ AtLayout s s' list (.start b σ) ⟨rest, σ⟩ := by
  obtain ⟨leave, next, rest, hleave, hsuffix⟩ := h.block b hb
  have hsuffix' : leave ++ .place next :: rest <:+ list :=
    ((suffix_append b.body _).trans (suffix_cons _ _)).trans hsuffix
  exact ⟨_, mem_entries_of_suffix hsuffix, rfl, hw.inner b hb, hw.labels_known b hb,
    leave, next, rest, rfl, hleave, hsuffix'⟩

/-- What is written out goes to a label as the blocks do. -/
theorem enter_goTo {l : Option Label} {σ : Store Mem}
    (hw : Writable exit s blocks) (hl : s.KnowsLabel l) :
    (∃ c d, enter blocks exit (some l, σ) = .go none c ∧ goTo list l σ = .go none d ∧
      AtLayout s s' list c d) ∨
    (enter blocks exit (some l, σ) = .stop (.done σ) ∧ goTo list l σ = .go none ⟨[], σ⟩) ∨
    ∃ o, enter blocks exit (some l, σ) = .stop o ∧ goTo list l σ = .stop o := by
  by_cases hexit : l = exit
  · subst hexit
    exact Or.inr (Or.inl ⟨enter_exit, goTo_of_mem h.once (mem_entries_of_suffix h.last)⟩)
  · by_cases hmem : l ∈ blocks.map (·.label)
    · obtain ⟨b, hb, rfl⟩ := mem_map.mp hmem
      obtain ⟨rest, hrest, hat⟩ := h.at_block (σ := σ) hw hb
      exact Or.inl ⟨_, _, enter_of_mem hw.once hb hexit, goTo_of_mem h.once hrest, hat⟩
    · refine Or.inr (Or.inr ⟨_, enter_of_not_mem hmem hexit, goTo_of_not_mem fun hmem' => ?_⟩)
      rcases h.label_cases l hmem' with hl' | hl' | ⟨m, hm, hmade⟩
      · exact hexit hl'
      · exact hmem hl'
      · exact hl.ne hmade hm

/-- At the end of a block, what is written out follows its jump. -/
theorem leaves {rest : List Stmt} {σ : Store Mem}
    (hw : Writable exit s blocks) (hlabels : ∀ l ∈ Exit.labels e, s.KnowsLabel l)
    (hleave : Leave s s' next e leave) (hsuffix : leave ++ .place next :: rest <:+ list) :
    (∃ c n d, enter blocks exit (target W e σ) = .go none c ∧
      Move.Reaches (listStep W list) (n + 1) ⟨leave ++ .place next :: rest, σ⟩ [] d ∧
      AtLayout s s' list c d) ∨
    ∃ o n d, enter blocks exit (target W e σ) = .stop o ∧
      Move.Reaches (listStep W list) n ⟨leave ++ .place next :: rest, σ⟩ [] d ∧
      listStep W list d = .stop o := by
  obtain ⟨n, d, hreach, hd⟩ := hleave.departs (W := W) h.once hsuffix σ
  obtain ⟨l, τ, htarget⟩ : ∃ l τ, target W e σ = (l, τ) := ⟨_, _, rfl⟩
  rw [htarget] at hd ⊢
  cases l with
  | none => exact Or.inr ⟨.astray τ, n, d, rfl, hreach, hd⟩
  | some l =>
    have hgo : listStep W list d = goTo list l τ := hd
    rcases h.enter_goTo (σ := τ) hw (hlabels l (mem_labels_of_target htarget)) with
      ⟨c, d', hc, hd', hat⟩ | ⟨hc, hd'⟩ | ⟨o, hc, hd'⟩
    · exact Or.inl ⟨c, n, d', hc, hreach.trans (.one (hgo.trans hd')), hat⟩
    · exact Or.inr ⟨.done τ, n + 1, ⟨[], τ⟩, hc, hreach.trans (.one (hgo.trans hd')), rfl⟩
    · exact Or.inr ⟨o, n, d, hc, hreach, hgo.trans hd'⟩

/-- Blocks that are written out run as the blocks do. -/
theorem simulates (hw : Writable exit s blocks) :
    Move.Simulates (blockStep W blocks exit) (listStep W list) (AtLayout s s' list) := by
  constructor
  · rintro ⟨body, e, σ⟩ ⟨r, σ'⟩ ev c ⟨hσ, hinner, hlabels, leave, next, rest, hr, hleave, hsuffix⟩
      hgo
    dsimp only at hσ hinner hlabels hr hleave
    subst hσ hr
    cases body with
    | cons x body =>
      cases hgo
      exact ⟨0, _, .one (listStep_of_isInner (hinner x mem_cons_self)), rfl,
        fun y hy => hinner y (mem_cons_of_mem x hy), hlabels, leave, next, rest, rfl, hleave,
        hsuffix⟩
    | nil =>
      have hgo' : enter blocks exit (target W e σ') = .go ev c := hgo
      rcases h.leaves (W := W) (σ := σ') hw hlabels hleave hsuffix with
        ⟨c', n, d, hc, hreach, hat⟩ | ⟨o, n, d, hc, -⟩
      · rw [hgo'] at hc
        cases hc
        exact ⟨n, d, hreach, hat⟩
      · rw [hgo'] at hc
        cases hc
  · rintro ⟨body, e, σ⟩ ⟨r, σ'⟩ o ⟨hσ, hinner, hlabels, leave, next, rest, hr, hleave, hsuffix⟩ hstop
    dsimp only at hσ hinner hlabels hr hleave
    subst hσ hr
    cases body with
    | cons x body => cases hstop
    | nil =>
      have hstop' : enter blocks exit (target W e σ') = .stop o := hstop
      rcases h.leaves (W := W) (σ := σ') hw hlabels hleave hsuffix with
        ⟨c', n, d, hc, -⟩ | ⟨o', n, d, hc, hreach, hd⟩
      · rw [hstop'] at hc
        cases hc
      · rw [hstop'] at hc
        cases hc
        exact ⟨n, d, hreach, hd⟩

end LaysOut

/-! ### Arranging -/

theorem Cuts.perm {blocks' : List Block} {xs : List Stmt} (h : Cuts exit s s' xs blocks)
    (hperm : blocks'.Perm blocks) : Cuts exit s s' xs blocks' where
  stretch b hb := h.stretch b (hperm.subset hb)
  places p hp := hperm.symm.subset (h.places p hp)
  once := (hperm.map _).nodup_iff.mpr h.once

/-- The jump behind a stretch leads to the end, to the place that follows or where a jump of the list
does. -/
theorem exit_straight_cases (exit : Option Label) (r : List Stmt) :
    (straight exit r).2 = .goto exit ∨ (∃ l ∈ placed r, (straight exit r).2 = .goto l) ∨
      ∃ x ∈ r, x.exit? = some (straight exit r).2 := by
  induction r with
  | nil => exact Or.inl rfl
  | cons x r ih =>
    rcases stmt_cases x with ⟨l, rfl⟩ | ⟨e, he⟩ | hinner
    · exact Or.inr (Or.inl ⟨l, mem_cons_self, rfl⟩)
    · rw [straight_cons_of_exit? he]
      exact Or.inr (Or.inr ⟨x, mem_cons_self, he⟩)
    · rw [straight_cons_of_isInner hinner]
      have hplaced : placed (x :: r) = placed r := by
        rw [placed, entries_cons, placed]
        rintro l rfl
        cases hinner
      rw [hplaced]
      refine ih.imp_right (Or.imp_right ?_)
      rintro ⟨y, hy, he⟩
      exact ⟨y, mem_cons_of_mem x hy, he⟩

theorem Cuts.writable {xs : List Stmt} {m : Label} (h : Cuts (some m) s₁ s' xs blocks)
    (hxs : Arrangeable s xs) (hm : s.MadeLabel s₁ m) (hs : s.MoreLabels s₁)
    (hs' : s₁.MoreLabels s') : Writable (some m) s' blocks := by
  have hknown : ∀ l ∈ blocks.map (·.label), s'.KnowsLabel l := by
    intro l hl
    rcases h.label_of_mem hl with hl | ⟨m', rfl, hm'⟩
    · exact ((hxs.placed_known l hl).mono hs).mono hs'
    · exact hm'.knowsLabel
  have hexit := hm.knowsLabel.mono hs'
  refine ⟨h.once, fun hmem => ?_, hknown, hexit, fun b hb => ?_, fun b hb l hl => ?_,
    fun b hb => ?_⟩
  · rcases h.label_of_mem hmem with hl | ⟨m', hm', hmade⟩
    · exact (hxs.placed_known _ hl).ne hm rfl
    · exact hm.knowsLabel.ne hmade hm'
  · obtain ⟨r, -, heq, -⟩ := h.stretch b hb
    rw [heq]
    exact fun x hx => isInner_of_mem_straight hx
  · obtain ⟨r, hr, heq, -⟩ := h.stretch b hb
    rw [heq] at hl
    have hgoto : ∀ l', l ∈ Exit.labels (.goto l') → l = l' := by simp [Exit.goto, Exit.labels]
    rcases exit_straight_cases (some m) r with he | ⟨l', hl', he⟩ | ⟨x, hx, he⟩
    · rw [blockAt, he] at hl
      rw [hgoto _ hl]
      exact hexit
    · rw [blockAt, he] at hl
      rw [hgoto _ hl]
      obtain ⟨p, hp, rfl⟩ := mem_map.mp hl'
      obtain ⟨pre, rfl⟩ := hr
      refine ((hxs.placed_known _ ?_).mono hs).mono hs'
      rw [placed_append]
      exact mem_append_right _ hl'
    · exact ((hxs.labels_known x (hr.subset hx) _ he l hl).mono hs).mono hs'
  · obtain ⟨r, hr, heq, -⟩ := h.stretch b hb
    rw [heq]
    show Invertible (straight (some m) r).2
    rcases exit_straight_cases (some m) r with he | ⟨l', -, he⟩ | ⟨x, hx, he⟩
    · rw [he]
      trivial
    · rw [he]
      trivial
    · generalize (straight (some m) r).2 = e at he
      cases x with
      | jump =>
        cases he
        trivial
      | cjump c l r t f =>
        cases he
        exact hxs.cond_known c l r t f (hr.subset hx)
      | missing | move | eval | seq | place => cases he

theorem ofStmt_ends {x : Stmt} (hxs : Arrangeable s x.flatten) :
    Ends (ofStmt exit x) s (fun blocks s' => s.MoreLabels s' ∧ Cuts exit s s' x.flatten blocks ∧
      ∃ b bs, blocks = b :: bs ∧ (b.body, b.exit) = straight exit (opening x.flatten))
      fun _ => False := by
  rw [ofStmt]
  generalize x.flatten = xs at hxs ⊢
  cases xs with
  | nil =>
    rw [cut, pure_bind]
    refine ends_freshLabel.bind fun l s₁ h1 => ?_
    have hnil : Cuts exit s₁ s₁ [] [] :=
      ⟨forall_mem_nil _, forall_mem_nil _, nodup_nil⟩
    exact ends_pure.mpr ⟨h1.2, hnil.fresh h1.1 h1.2 (.refl s₁) (forall_mem_nil _), _, _, rfl,
      rfl⟩
  | cons y ys =>
    refine (cut_ends none hxs.present hxs.placed_known hxs.once).bind fun result s₁ h1 => ?_
    obtain ⟨hmore, blocks, rfl, hcuts, hhead⟩ := h1
    obtain ⟨b, bs, rfl, hb⟩ := hhead rfl (cons_ne_nil y ys)
    exact ends_pure.mpr ⟨hmore, hcuts, b, bs, rfl, hb⟩

/-- The first block begins what is written out. -/
theorem LaysOut.sameRuns_start {b : Block} {bs : List Block} {σ : Store Mem}
    (h : LaysOut exit s s' (b :: bs) list) (hw : Writable exit s (b :: bs)) :
    Move.SameRuns (blockStep W (b :: bs) exit) (.start b σ) (listStep W list) ⟨list, σ⟩ := by
  obtain ⟨rest, hmem, hat⟩ := h.at_block (σ := σ) hw mem_cons_self
  obtain ⟨rest', hlist⟩ := h.head
  have hmem' : (b.label, rest') ∈ entries list := by
    rw [hlist]
    exact mem_cons_self
  -- the label is placed once
  have hgo := (goTo_of_mem (σ := σ) h.once hmem).symm.trans (goTo_of_mem h.once hmem')
  rw [Move.go.injEq, Config.mk.injEq] at hgo
  have hstart : listStep W list ⟨list, σ⟩ = .go none ⟨rest, σ⟩ := by
    rw [hgo.2.1]
    nth_rewrite 2 [hlist]
    rfl
  exact ((h.simulates hw).sameRuns hat).trans (Move.SameRuns.of_silent rfl hstart).symm

end Codegen.Semantics

namespace Codegen.Block

open Semantics Pass List

/-- **Arranging blocks preserves meaning.** A statement that can be arranged is arranged, and the
result runs as the statement does from every store, whatever trees mean and wherever labels are:
through the same statements with the same stores, to the end, to the same label that is not placed,
astray, or forever. -/
theorem arrangeStmt_preserves {Mem : Type*} (W : World Mem) {x : Stmt} {s : Supply}
    (hx : Arrangeable s x.flatten) :
    ∃ list s', arrangeStmt x s = .ok (.seq list) s' ∧ ∀ σ : Store Mem,
      Move.SameRuns (listStep W x.flatten) ⟨x.flatten, σ⟩ (listStep W list) ⟨list, σ⟩ := by
  have hends : Ends (arrangeStmt x) s (fun y _ => ∃ list, y = .seq list ∧ ∀ σ : Store Mem,
      Move.SameRuns (listStep W x.flatten) ⟨x.flatten, σ⟩ (listStep W list) ⟨list, σ⟩)
      fun _ => False := by
    rw [arrangeStmt, ends_bind]
    refine ends_freshLabel.mono (fun m s₁ h1 => ?_) fun _ h => h
    obtain ⟨hm, hs₁⟩ := h1
    rw [ends_bind]
    refine (ofStmt_ends (hx.mono hs₁)).mono (fun blocks s₂ h2 => ?_) fun _ h => h
    obtain ⟨hs₂, hcuts, b, bs, hblocks, hb⟩ := h2
    -- the blocks in their new order
    have hcuts' := hcuts.perm (arrange_perm blocks)
    obtain ⟨bs', harrange⟩ : ∃ bs', arrange blocks = b :: bs' := by
      have hhead := head?_arrange blocks
      rw [hblocks] at hhead ⊢
      exact head?_eq_some_iff.mp hhead
    rw [harrange] at hcuts' ⊢
    have hw := hcuts'.writable hx hm hs₁ hs₂
    rw [ends_bind]
    refine (layout_ends hw).mono (fun list s₃ h3 => ?_) fun _ h => h
    refine ends_pure.mpr ⟨list, rfl, fun σ => ?_⟩
    have hstretch : AtStretch (some m) x.flatten (.start b σ) ⟨opening x.flatten, σ⟩ :=
      ⟨opening_suffix _, hb, rfl⟩
    have hcut := (hcuts'.simulates (W := W) hx hm hs₁).sameRuns hstretch
    exact ((sameRuns_opening _ σ).trans hcut.symm).trans (h3.sameRuns_start hw)
  obtain ⟨y, s', hy, list, rfl, hruns⟩ := hends.returns
  exact ⟨list, s', hy, hruns⟩

/-- A loop with a way out of the middle, entered at its end. -/
def pollLoop : Stmt :=
  .seq [.goto (some ⟨0, 1, "test"⟩),
    .place (some ⟨0, 0, "body"⟩),
    .move (.temp (some ⟨0, 0, "n"⟩)) (.bin .add (.temp (some ⟨0, 0, "n"⟩)) (.int 1) 0),
    .cjump .eq (.mem (.temp (some ⟨0, 0, "n"⟩))) (.int 0) (some ⟨0, 2, "fail"⟩)
      (some ⟨0, 1, "test"⟩),
    .place (some ⟨0, 1, "test"⟩),
    .cjump .lt (.temp (some ⟨0, 0, "n"⟩)) (.int 10) (some ⟨0, 0, "body"⟩) (some ⟨0, 3, "end"⟩),
    .place (some ⟨0, 3, "end"⟩)]

theorem pollLoop_preserved :
    Arrangeable { labels := 4, regs := 1 } pollLoop.flatten ∧
      ∀ W : World (Int64 → Int64), ∃ list s',
        arrangeStmt pollLoop { labels := 4, regs := 1 } = .ok (.seq list) s' ∧
          ∀ σ, Move.SameRuns (listStep W pollLoop.flatten) ⟨pollLoop.flatten, σ⟩
            (listStep W list) ⟨list, σ⟩ := by
  have h : Arrangeable { labels := 4, regs := 1 } pollLoop.flatten := by
    refine ⟨by decide, by decide, by decide, ?_, ?_⟩
    · intro x hx e he l hl
      simp only [pollLoop, Stmt.flatten, Stmt.flattenAll, Stmt.goto, cons_append,
        nil_append, mem_cons, not_mem_nil, or_false] at hx
      rcases hx with rfl | rfl | rfl | rfl | rfl | rfl | rfl <;> cases he <;>
        revert l <;> decide
    · intro c l r t f hmem
      simp only [pollLoop, Stmt.flatten, Stmt.flattenAll, Stmt.goto, cons_append,
        nil_append, mem_cons, not_mem_nil, or_false, Stmt.cjump.injEq,
        reduceCtorEq, false_or] at hmem
      rcases hmem with ⟨rfl, -⟩ | ⟨rfl, -⟩ <;> rfl
  exact ⟨h, fun W => arrangeStmt_preserves W h⟩

end Codegen.Block
