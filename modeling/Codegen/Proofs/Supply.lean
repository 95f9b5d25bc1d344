import Codegen.Register

/-!
# Registers of the supply

Registers that were handed out between two states of the supply (`Made`), and those that were there
before (`Knows`), which are never the same; and the same for labels (`MadeLabel`, `KnowsLabel`).
-/

namespace Codegen.Supply

variable (s : Supply)

/-- Register `t` was handed out, without a name, between two states of the supply. -/
structure Made (s s' : Supply) (t : Reg) : Prop where
  pool : t.pool = s.pool
  name : t.name = ""
  le : s.regs ≤ t.id
  lt : t.id < s'.regs

/-- The supply hands out registers only. -/
structure Grows (s s' : Supply) : Prop where
  pool : s'.pool = s.pool
  regs : s.regs ≤ s'.regs

theorem Grows.refl : s.Grows s := ⟨rfl, Nat.le_refl _⟩

theorem Grows.trans {s s' s'' : Supply} (h : s.Grows s') (h' : s'.Grows s'') : s.Grows s'' :=
  ⟨h'.pool.trans h.pool, Nat.le_trans h.regs h'.regs⟩

theorem Made.mono {s s₁ s₂ s' : Supply} {t : Reg} (h : s₁.Made s₂ t) (h₁ : s.Grows s₁)
    (h₂ : s₂.Grows s') : s.Made s' t :=
  ⟨h.pool.trans h₁.pool, h.name, Nat.le_trans h₁.regs h.le, Nat.lt_of_lt_of_le h.lt h₂.regs⟩

/-- What is handed out has a number of its own. -/
theorem Made.eq_of_id {s s' s'' : Supply} {r w : Reg} (hr : s.Made s' r) (hw : s.Made s'' w)
    (hid : r.id = w.id) : r = w := by
  cases r
  cases w
  cases hid
  cases hr.pool.trans hw.pool.symm
  cases hr.name.trans hw.name.symm
  rfl

theorem grows_freshReg : s.Grows s.freshReg.2 := ⟨rfl, Nat.le_succ _⟩

theorem made_freshReg : s.Made s.freshReg.2 s.freshReg.1 :=
  ⟨rfl, rfl, Nat.le_refl _, Nat.lt_succ_self _⟩

/-- A register from the supply was handed out before. -/
def Knows (s : Supply) (r : Option Reg) : Prop :=
  ∀ x, r = some x → x.pool = s.pool → x.id < s.regs

instance (s : Supply) : (r : Option Reg) → Decidable (s.Knows r)
  | none => .isTrue nofun
  | some x => decidable_of_iff (x.pool = s.pool → x.id < s.regs)
    ⟨fun h _ hx => by cases hx; exact h, fun h => h x rfl⟩

theorem Knows.mono {s s' : Supply} {r : Option Reg} (h : s.Knows r) (hs : s.Grows s') :
    s'.Knows r :=
  fun x hx hp => Nat.lt_of_lt_of_le (h x hx (hp.trans hs.pool)) hs.regs

theorem Knows.ne {s s' : Supply} {r : Option Reg} {t : Reg} (h : s.Knows r)
    (ht : s.Made s' t) : r ≠ some t := by
  rintro rfl
  have := h t rfl ht.pool
  have := ht.le
  omega

theorem Made.knows {s s' : Supply} {t : Reg} (h : s.Made s' t) : s'.Knows (some t) := by
  rintro x hx -
  cases hx
  exact h.lt

/-- Different registers were handed out between two states of the supply. -/
structure HandsOut (s s' : Supply) (rs : List Reg) : Prop where
  grows : s.Grows s'
  made : ∀ r ∈ rs, s.Made s' r
  nodup : rs.Nodup

theorem Grows.handsOut {s s' : Supply} (h : s.Grows s') : s.HandsOut s' [] := ⟨h, nofun, .nil⟩

theorem handsOut_freshReg : s.HandsOut s.freshReg.2 [s.freshReg.1] :=
  ⟨s.grows_freshReg, List.forall_mem_singleton.mpr s.made_freshReg, List.pairwise_singleton _ _⟩

theorem HandsOut.append {s s₁ s' : Supply} {rs rs' : List Reg} (h : s.HandsOut s₁ rs)
    (h' : s₁.HandsOut s' rs') : s.HandsOut s' (rs ++ rs') := by
  refine ⟨h.grows.trans h'.grows, ?_, List.nodup_append.mpr ⟨h.nodup, h'.nodup, ?_⟩⟩
  · rw [List.forall_mem_append]
    exact ⟨fun r hr => (h.made r hr).mono (.refl _) h'.grows,
      fun r hr => (h'.made r hr).mono h.grows (.refl _)⟩
  · rintro r hr _ hr' rfl
    exact (h.made r hr).knows.ne (h'.made r hr') rfl

/-! ### Labels -/

/-- Label `l` was handed out between two states of the supply. -/
structure MadeLabel (s s' : Supply) (l : Label) : Prop where
  pool : l.pool = s.pool
  le : s.labels ≤ l.id
  lt : l.id < s'.labels

/-- The supply hands out labels only. -/
structure MoreLabels (s s' : Supply) : Prop where
  pool : s'.pool = s.pool
  labels : s.labels ≤ s'.labels

theorem MoreLabels.refl : s.MoreLabels s := ⟨rfl, Nat.le_refl _⟩

theorem MoreLabels.trans {s s' s'' : Supply} (h : s.MoreLabels s') (h' : s'.MoreLabels s'') :
    s.MoreLabels s'' :=
  ⟨h'.pool.trans h.pool, Nat.le_trans h.labels h'.labels⟩

theorem MadeLabel.mono {s s₁ s₂ s' : Supply} {l : Label} (h : s₁.MadeLabel s₂ l)
    (h₁ : s.MoreLabels s₁) (h₂ : s₂.MoreLabels s') : s.MadeLabel s' l :=
  ⟨h.pool.trans h₁.pool, Nat.le_trans h₁.labels h.le, Nat.lt_of_lt_of_le h.lt h₂.labels⟩

theorem moreLabels_freshLabel : s.MoreLabels s.freshLabel.2 := ⟨rfl, Nat.le_succ _⟩

theorem madeLabel_freshLabel : s.MadeLabel s.freshLabel.2 s.freshLabel.1 :=
  ⟨rfl, Nat.le_refl _, Nat.lt_succ_self _⟩

/-- A label from the supply was handed out before. -/
def KnowsLabel (s : Supply) (l : Option Label) : Prop :=
  ∀ x, l = some x → x.pool = s.pool → x.id < s.labels

instance (s : Supply) : (l : Option Label) → Decidable (s.KnowsLabel l)
  | none => .isTrue nofun
  | some x => decidable_of_iff (x.pool = s.pool → x.id < s.labels)
    ⟨fun h _ hx => by cases hx; exact h, fun h => h x rfl⟩

theorem KnowsLabel.mono {s s' : Supply} {l : Option Label} (h : s.KnowsLabel l)
    (hs : s.MoreLabels s') : s'.KnowsLabel l :=
  fun x hx hp => Nat.lt_of_lt_of_le (h x hx (hp.trans hs.pool)) hs.labels

theorem KnowsLabel.ne {s s' : Supply} {l : Option Label} {m : Label} (h : s.KnowsLabel l)
    (hm : s.MadeLabel s' m) : l ≠ some m := by
  rintro rfl
  have := h m rfl hm.pool
  have := hm.le
  omega

theorem MadeLabel.knowsLabel {s s' : Supply} {l : Label} (h : s.MadeLabel s' l) :
    s'.KnowsLabel (some l) := by
  rintro x hx -
  cases hx
  exact h.lt

/-! ### Registers and labels -/

/-- The supply hands out registers and labels only. -/
structure Advances (s s' : Supply) : Prop where
  grows : s.Grows s'
  more : s.MoreLabels s'

theorem Advances.refl : s.Advances s := ⟨.refl s, .refl s⟩

theorem Advances.trans {s s' s'' : Supply} (h : s.Advances s') (h' : s'.Advances s'') :
    s.Advances s'' := ⟨h.grows.trans h'.grows, h.more.trans h'.more⟩

theorem advances_freshReg : s.Advances s.freshReg.2 :=
  ⟨s.grows_freshReg, rfl, Nat.le_refl _⟩

/-! ### What holds of registers as the supply grows -/

/-- Registers of which something holds that stays true as the supply grows, and that is true of fresh
ones. -/
structure Keeps (s : Supply) (Q : Supply → Option Reg → Prop) : Prop where
  mono : ∀ {c c' r}, c.Grows c' → Q c r → Q c' r
  fresh : ∀ c, s.Grows c → Q c.freshReg.2 (some c.freshReg.1)

end Codegen.Supply
