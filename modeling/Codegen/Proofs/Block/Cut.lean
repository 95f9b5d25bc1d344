import Codegen.Proofs.Block.Execution
import Codegen.Proofs.Pass
import Codegen.Proofs.Supply
import Mathlib.Data.List.Infix

/-!
# Cutting into blocks preserves meaning

From any point of a list of statements there is a straight stretch up to the next jump, the next
place or the end (`straight`). The blocks of the list are the stretches behind its places, and some
more under fresh labels (`Cuts`); they run as the list does (`Cuts.simulates`).
-/

namespace Codegen.Semantics

open Block Pass List

variable {Mem : Type*} {W : World Mem} {exit : Option Label} {s s' : Supply} {xs r : List Stmt}
  {blocks : List Block}

variable {x : Stmt}

/-- The statements up to the next jump or place, and the jump behind them. -/
def straight (exit : Option Label) : List Stmt → List Stmt × Exit
  | [] => ([], .goto exit)
  | .place l :: _ => ([], .goto l)
  | x :: rest =>
    match x.exit? with
    | some e => ([], e)
    | none => (x :: (straight exit rest).1, (straight exit rest).2)

/-- The block with a label and the stretch from a point on. -/
def blockAt (exit l : Option Label) (r : List Stmt) : Block :=
  ⟨l, (straight exit r).1, (straight exit r).2⟩

theorem straight_cons_of_exit? {e : Exit} (h : x.exit? = some e) (rest : List Stmt) :
    straight exit (x :: rest) = ([], e) := by
  cases x with
  | jump | cjump => cases h; rfl
  | missing | move | eval | seq | place => cases h

theorem straight_cons_of_isInner (h : isInner x = true) (rest : List Stmt) :
    straight exit (x :: rest) = (x :: (straight exit rest).1, (straight exit rest).2) := by
  cases x with
  | jump | cjump | place => cases h
  | missing | move | eval | seq => rfl

/-- A statement is a place, a jump or neither. -/
theorem stmt_cases (x : Stmt) :
    (∃ l, x = .place l) ∨ (∃ e, x.exit? = some e) ∨ isInner x = true := by
  cases x with
  | place l => exact Or.inl ⟨l, rfl⟩
  | jump | cjump => exact Or.inr (Or.inl ⟨_, rfl⟩)
  | missing | move | eval | seq => exact Or.inr (Or.inr rfl)

theorem isInner_of_mem_straight (h : x ∈ (straight exit r).1) : isInner x = true := by
  induction r with
  | nil => cases h
  | cons y r ih =>
    rcases stmt_cases y with ⟨l, rfl⟩ | ⟨e, he⟩ | hy
    · cases h
    · rw [straight_cons_of_exit? he] at h
      cases h
    · rw [straight_cons_of_isInner hy] at h
      rcases mem_cons.mp h with rfl | h
      · exact hy
      · exact ih h

theorem entries_cons (hx : ∀ l, x ≠ .place l) : entries (x :: xs) = entries xs := by
  cases x with
  | place l => exact absurd rfl (hx l)
  | missing | move | eval | jump | cjump | seq => rfl

/-- Where the first block begins. -/
def opening : List Stmt → List Stmt
  | .place _ :: rest => rest
  | rest => rest

theorem opening_suffix (xs : List Stmt) : opening xs <:+ xs := by
  unfold opening
  split
  · exact suffix_cons _ _
  · exact suffix_rfl

/-- The blocks that begin in a list of statements. -/
structure Cuts (exit : Option Label) (s s' : Supply) (xs : List Stmt) (blocks : List Block) :
    Prop where
  stretch : ∀ b ∈ blocks, ∃ r, r <:+ xs ∧ b = blockAt exit b.label r ∧
    ((b.label, r) ∈ entries xs ∨ ∃ l, b.label = some l ∧ s.MadeLabel s' l)
  places : ∀ p ∈ entries xs, blockAt exit p.1 p.2 ∈ blocks
  once : (blocks.map (·.label)).Nodup

namespace Cuts

theorem mono {s₁ : Supply} (h : Cuts exit s₁ s' xs blocks) (hs : s.MoreLabels s₁) :
    Cuts exit s s' xs blocks where
  stretch b hb := by
    obtain ⟨r, hr, heq, hlabel⟩ := h.stretch b hb
    exact ⟨r, hr, heq, hlabel.imp_right fun ⟨l, hl, hmade⟩ => ⟨l, hl, hmade.mono hs (.refl _)⟩⟩
  places := h.places
  once := h.once

/-- A statement that is no place begins no block. -/
theorem skip (h : Cuts exit s s' xs blocks) (hx : ∀ l, x ≠ .place l) :
    Cuts exit s s' (x :: xs) blocks where
  stretch b hb := by
    rw [entries_cons hx]
    obtain ⟨r, hr, heq, hlabel⟩ := h.stretch b hb
    exact ⟨r, hr.trans (suffix_cons x xs), heq, hlabel⟩
  places := by
    rw [entries_cons hx]
    exact h.places
  once := h.once

/-- The label of a block is placed or fresh. -/
theorem label_of_mem {l : Option Label} (h : Cuts exit s s' xs blocks)
    (hl : l ∈ blocks.map (·.label)) :
    l ∈ placed xs ∨ ∃ m, l = some m ∧ s.MadeLabel s' m := by
  obtain ⟨b, hb, rfl⟩ := mem_map.mp hl
  obtain ⟨r, -, -, hlabel⟩ := h.stretch b hb
  exact hlabel.imp_left fun hmem => mem_map.mpr ⟨_, hmem, rfl⟩

/-- A place begins a block. -/
theorem place {l : Option Label} (h : Cuts exit s s' xs blocks) (hknown : s.KnowsLabel l)
    (honce : l ∉ placed xs) : Cuts exit s s' (.place l :: xs) (blockAt exit l xs :: blocks) where
  stretch := by
    refine forall_mem_cons.mpr ⟨⟨xs, suffix_cons _ xs, rfl, Or.inl mem_cons_self⟩,
      fun b hb => ?_⟩
    obtain ⟨r, hr, heq, hlabel⟩ := h.stretch b hb
    exact ⟨r, hr.trans (suffix_cons _ xs), heq,
      hlabel.imp_left fun hmem => mem_cons_of_mem _ hmem⟩
  places := forall_mem_cons.mpr
    ⟨mem_cons_self, fun p hp => mem_cons_of_mem _ (h.places p hp)⟩
  once := by
    refine nodup_cons.mpr ⟨fun hl => ?_, h.once⟩
    rcases h.label_of_mem hl with hmem | ⟨m, hm, hmade⟩
    · exact honce hmem
    · exact hknown.ne hmade hm

/-- A block with a fresh label may begin anywhere. -/
theorem fresh {l : Label} {s₁ : Supply} (h : Cuts exit s₁ s' xs blocks) (hmade : s.MadeLabel s₁ l)
    (hs : s.MoreLabels s₁) (hs' : s₁.MoreLabels s') (hknown : ∀ l ∈ placed xs, s.KnowsLabel l) :
    Cuts exit s s' xs (blockAt exit (some l) xs :: blocks) := by
  refine ⟨forall_mem_cons.mpr ⟨⟨xs, suffix_rfl, rfl,
      Or.inr ⟨l, rfl, hmade.mono (.refl s) hs'⟩⟩, (h.mono hs).stretch⟩,
    fun p hp => mem_cons_of_mem _ (h.places p hp),
    nodup_cons.mpr ⟨fun hl => ?_, h.once⟩⟩
  rcases h.label_of_mem hl with hmem | ⟨m, hm, hmade'⟩
  · exact (hknown _ hmem).ne hmade rfl
  · exact hmade.knowsLabel.ne hmade' hm

end Cuts

/-! ### Cutting -/

/-- The blocks that are cut off, the first being the one that was begun before. -/
structure CutOff (exit : Option Label) (s s' : Supply) (cur : Option OpenBlock) (xs : List Stmt)
    (result : List Block) : Prop where
  more : s.MoreLabels s'
  blocks : ∃ blocks, result =
      (cur.map fun b => ⟨b.label, b.body ++ (straight exit xs).1, (straight exit xs).2⟩).toList
        ++ blocks ∧
    Cuts exit s s' xs blocks ∧
    (cur = none → xs ≠ [] → ∃ b bs, blocks = b :: bs ∧ (b.body, b.exit) = straight exit (opening xs))

theorem cut_place (cur : Option OpenBlock) (l : Option Label) (rest : List Stmt) :
    cut exit cur (.place l :: rest) = (do
      let blocks ← cut exit (some { label := l }) rest
      return (cur.map fun b => b.close (.goto l)).toList ++ blocks) := by
  cases cur <;> rw [cut]

theorem cut_some (b : OpenBlock) (hx : x.isPresent = true)
    (hplace : ∀ l, x ≠ .place l) (rest : List Stmt) :
    cut exit (some b) (x :: rest) =
      match x.exit? with
      | some e => do
        let blocks ← cut exit none rest
        return b.close e :: blocks
      | none => cut exit (some { b with body := b.body ++ [x] }) rest := by
  cases x with
  | missing => cases hx
  | place l => exact absurd rfl (hplace l)
  | move | eval | jump | cjump | seq => rw [cut] <;> first | rfl | exact nofun

theorem cut_none (hx : x.isPresent = true) (hplace : ∀ l, x ≠ .place l) (rest : List Stmt) :
    cut exit none (x :: rest) = (do
      let l ← freshLabel
      cut exit (some { label := some l }) (x :: rest)) := by
  cases x with
  | missing => cases hx
  | place l => exact absurd rfl (hplace l)
  | move | eval | jump | cjump | seq => rfl

theorem freshLabel_advances {err : Failure → Prop} :
    Ends freshLabel s (fun l s' => s.MadeLabel s' l ∧ s.Advances s') err := by
  rw [freshLabel, ends_step]
  exact ⟨s.madeLabel_freshLabel, ⟨rfl, Nat.le_refl _⟩, s.moreLabels_freshLabel⟩

theorem ends_freshLabel : Ends freshLabel s
    (fun l s' => s.MadeLabel s' l ∧ s.MoreLabels s') fun _ => False :=
  freshLabel_advances.imp fun _ _ h => ⟨h.1, h.2.more⟩

/-- What is left of an open block in front of a statement that is no place. -/
theorem cut_some_ends (b : OpenBlock) (hx : x.isPresent = true) (hplace : ∀ l, x ≠ .place l)
    (ih : ∀ cur, Ends (cut exit cur xs) s (fun result s' => CutOff exit s s' cur xs result)
      fun _ => False) :
    Ends (cut exit (some b) (x :: xs)) s
      (fun result s' => CutOff exit s s' (some b) (x :: xs) result) fun _ => False := by
  rw [cut_some b hx hplace]
  rcases stmt_cases x with ⟨l, rfl⟩ | ⟨e, he⟩ | hinner
  · exact absurd rfl (hplace l)
  · rw [he]
    dsimp only
    refine (ih none).bind fun result s₁ h1 => ?_
    obtain ⟨hmore, blocks, rfl, hcuts, -⟩ := h1
    refine ends_pure.mpr ⟨hmore, result, ?_, hcuts.skip hplace, nofun⟩
    rw [straight_cons_of_exit? he]
    simp [OpenBlock.close]
  · have hexit : x.exit? = none := by
      cases x with
      | jump | cjump | place => cases hinner
      | missing | move | eval | seq => rfl
    rw [hexit]
    dsimp only
    refine (ih _).imp fun result s₁ h1 => ?_
    obtain ⟨hmore, blocks, rfl, hcuts, -⟩ := h1
    refine ⟨hmore, blocks, ?_, hcuts.skip hplace, nofun⟩
    rw [straight_cons_of_isInner hinner]
    simp

theorem cut_ends (cur : Option OpenBlock) (hpresent : ∀ x ∈ xs, x.isPresent = true)
    (hknown : ∀ l ∈ placed xs, s.KnowsLabel l) (honce : (placed xs).Nodup) :
    Ends (cut exit cur xs) s (fun result s' => CutOff exit s s' cur xs result) fun _ => False := by
  induction xs generalizing cur s with
  | nil =>
    have hcuts : Cuts exit s s [] [] :=
      ⟨forall_mem_nil _, forall_mem_nil _, nodup_nil⟩
    cases cur with
    | none =>
      rw [cut]
      exact ends_pure.mpr ⟨.refl s, [], rfl, hcuts, fun _ h => absurd rfl h⟩
    | some b =>
      rw [cut]
      refine ends_pure.mpr ⟨.refl s, [], ?_, hcuts, nofun⟩
      simp [straight, OpenBlock.close]
  | cons x xs ih =>
    obtain ⟨hx, hpresent'⟩ := forall_mem_cons.mp hpresent
    by_cases hplace : ∃ l, x = .place l
    · obtain ⟨l, rfl⟩ := hplace
      obtain ⟨hl, hknown⟩ := forall_mem_cons.mp hknown
      obtain ⟨hnot, honce⟩ := nodup_cons.mp honce
      rw [cut_place]
      refine (ih (some { label := l }) hpresent' hknown honce).bind fun result s₁ h1 => ?_
      obtain ⟨hmore, blocks, rfl, hcuts, -⟩ := h1
      refine ends_pure.mpr ⟨hmore, blockAt exit l xs :: blocks, ?_, hcuts.place hl hnot,
        fun _ _ => ⟨_, _, rfl, rfl⟩⟩
      simp [straight, OpenBlock.close, blockAt]
    · have hplace' : ∀ l, x ≠ .place l := fun l hl => hplace ⟨l, hl⟩
      have hplaced : placed (x :: xs) = placed xs := by
        rw [placed, entries_cons hplace', placed]
      rw [hplaced] at hknown honce
      cases cur with
      | some b => exact cut_some_ends b hx hplace' fun cur => ih cur hpresent' hknown honce
      | none =>
        rw [cut_none hx hplace']
        refine ends_freshLabel.bind fun l s₁ h1 => ?_
        have hknown₁ := fun l hl => (hknown l hl).mono h1.2
        refine (cut_some_ends _ hx hplace' fun cur => ih cur hpresent' hknown₁ honce).imp
          fun result s₂ h2 => ?_
        obtain ⟨hmore, blocks, rfl, hcuts, -⟩ := h2
        refine ⟨h1.2.trans hmore, blockAt exit (some l) (x :: xs) :: blocks, ?_,
          hcuts.fresh h1.1 h1.2 hmore (hplaced ▸ hknown), fun _ _ => ⟨_, _, rfl, ?_⟩⟩
        · simp [blockAt]
        · cases x with
          | place l => exact absurd rfl (hplace' l)
          | missing | move | eval | jump | cjump | seq => rfl

/-! ### Running -/

/-- What a list of statements has to be like to be arranged: no statement is absent, no label is
placed twice, the labels were handed out before and the conditions are known. -/
structure Arrangeable (s : Supply) (xs : List Stmt) : Prop where
  present : ∀ x ∈ xs, x.isPresent = true
  once : (placed xs).Nodup
  placed_known : ∀ l ∈ placed xs, s.KnowsLabel l
  labels_known : ∀ x ∈ xs, ∀ e, x.exit? = some e → ∀ l ∈ Exit.labels e, s.KnowsLabel l
  cond_known : ∀ c l r t f, .cjump c l r t f ∈ xs → c.isKnown = true

theorem Arrangeable.mono (h : Arrangeable s xs) (hs : s.MoreLabels s') : Arrangeable s' xs where
  present := h.present
  once := h.once
  placed_known l hl := (h.placed_known l hl).mono hs
  labels_known x hx e he l hl := (h.labels_known x hx e he l hl).mono hs
  cond_known := h.cond_known

/-- Where blocks and the list are at the same point. -/
def AtStretch (exit : Option Label) (xs : List Stmt) (c : BlockConfig Mem) (d : Config Mem) : Prop :=
  d.rest <:+ xs ∧ (c.body, c.exit) = straight exit d.rest ∧ d.store = c.store

theorem mem_entries_of_suffix {l : Option Label} (h : .place l :: r <:+ xs) :
    (l, r) ∈ entries xs := by
  obtain ⟨ys, rfl⟩ := h
  induction ys with
  | nil => exact mem_cons_self
  | cons y ys ih =>
    rcases stmt_cases y with ⟨m, rfl⟩ | hy
    · exact mem_cons_of_mem _ ih
    · rw [cons_append, entries_cons]
      · exact ih
      · rintro m rfl
        rcases hy with ⟨e, he⟩ | hy
        · cases he
        · cases hy

theorem suffix_of_mem_entries {p : Option Label × List Stmt} (h : p ∈ entries xs) : p.2 <:+ xs := by
  induction xs with
  | nil => cases h
  | cons x xs ih =>
    by_cases hx : ∃ l, x = .place l
    · obtain ⟨l, rfl⟩ := hx
      rcases mem_cons.mp h with rfl | h
      · exact suffix_cons _ xs
      · exact (ih h).trans (suffix_cons _ xs)
    · rw [entries_cons fun l hl => hx ⟨l, hl⟩] at h
      exact (ih h).trans (suffix_cons x xs)

namespace Cuts

/-- Blocks go to a label as the list does. -/
theorem enter_goTo {l : Option Label} {σ : Store Mem} (h : Cuts exit s s' xs blocks)
    (honce : (placed xs).Nodup) (hl : s.KnowsLabel l) (hexit : l ≠ exit) :
    (∃ e c d, enter blocks exit (some l, σ) = .go e c ∧ goTo xs l σ = .go e d ∧
      AtStretch exit xs c d) ∨
    ∃ o, enter blocks exit (some l, σ) = .stop o ∧ goTo xs l σ = .stop o := by
  by_cases hmem : l ∈ placed xs
  · obtain ⟨p, hp, rfl⟩ := mem_map.mp hmem
    exact Or.inl ⟨none, .start (blockAt exit p.1 p.2) σ, ⟨p.2, σ⟩,
      enter_of_mem h.once (h.places p hp) hexit, goTo_of_mem honce hp,
      suffix_of_mem_entries hp, rfl, rfl⟩
  · refine Or.inr ⟨_, enter_of_not_mem (fun hl' => ?_) hexit, goTo_of_not_mem hmem⟩
    rcases h.label_of_mem hl' with hmem' | ⟨m, hm, hmade⟩
    · exact hmem hmem'
    · exact hl.ne hmade hm

/-- A list of statements runs as its blocks do, under a label for the end that was made later. -/
theorem simulates {s₀ : Supply} {m : Label} (h : Cuts (some m) s s' xs blocks)
    (hxs : Arrangeable s₀ xs) (hm : s₀.MadeLabel s m) (hs : s₀.MoreLabels s) :
    Move.Simulates (blockStep W blocks (some m)) (listStep W xs) (AtStretch (some m) xs) := by
  have hgo : ∀ l (σ : Store Mem), s₀.KnowsLabel l → _ := fun l σ hl =>
    h.enter_goTo (σ := σ) hxs.once (hl.mono hs) (hl.ne hm)
  refine .of_lockstep fun ⟨body, e, σ⟩ ⟨r, σ'⟩ ⟨hr, hstretch, hσ⟩ => ?_
  dsimp only at hr hstretch hσ
  subst hσ
  cases r with
  | nil =>
    cases hstretch
    exact Or.inr ⟨.done σ', enter_exit, rfl⟩
  | cons x r =>
    have hsuffix : r <:+ xs := (suffix_cons x r).trans hr
    rcases stmt_cases x with ⟨l, rfl⟩ | ⟨e', he⟩ | hinner
    · cases hstretch
      have hp := mem_entries_of_suffix hr
      have hl := hxs.placed_known l (mem_map.mpr ⟨_, hp, rfl⟩)
      have hboth := hgo l σ' hl
      rw [goTo_of_mem hxs.once hp] at hboth
      exact hboth
    · rw [straight_cons_of_exit? he] at hstretch
      cases hstretch
      rw [listStep_of_exit? he]
      show (∃ e₁ c d, enter blocks (some m) (target W e σ') = _ ∧ _) ∨
        ∃ o, enter blocks (some m) (target W e σ') = _ ∧ _
      cases htarget : target W e σ' with
      | mk l τ =>
        cases l with
        | none => exact Or.inr ⟨.astray τ, rfl, rfl⟩
        | some l =>
          exact hgo l τ (hxs.labels_known x (hr.subset mem_cons_self) e he l
            (mem_labels_of_target htarget))
    · rw [straight_cons_of_isInner hinner] at hstretch
      cases hstretch
      exact Or.inl ⟨_, _, _, rfl, listStep_of_isInner hinner, hsuffix, rfl, rfl⟩

end Cuts

theorem sameRuns_opening (xs : List Stmt) (σ : Store Mem) :
    Move.SameRuns (listStep W xs) ⟨xs, σ⟩ (listStep W xs) ⟨opening xs, σ⟩ := by
  cases xs with
  | nil => exact .refl _ _
  | cons x xs =>
    rcases stmt_cases x with ⟨l, rfl⟩ | hx
    · have hstep : listStep W (.place l :: xs) ⟨.place l :: xs, σ⟩ = .go none ⟨xs, σ⟩ := rfl
      exact .of_silent rfl hstep
    · have hopening : opening (x :: xs) = x :: xs := by
        unfold opening
        split
        · rename_i heq
          cases heq
          rcases hx with ⟨e, he⟩ | hx
          · cases he
          · cases hx
        · rfl
      rw [hopening]
      exact .refl _ _

end Codegen.Semantics
