import Codegen.Proofs.Allocation.Progress

/-!
# Code made of stretches

Taken one instruction after the other, code needs the registers that it may read before it has written
them (`Code.Needs`). A stretch needs no machine registers from before, and only its first instruction
may place a label. So between stretches no machine register is in use, however control goes, and
within a stretch only those that it names (`LiveAfter.needs`). Code made of stretches behind a first
part without jumps back to it fits if each instruction leaves room for the machine registers of its
stretch (`pressure_le_of_stretches`).
-/

namespace Codegen

open List

/-! ### What code needs -/

namespace Code

variable {code a b : Code} {r : Option Reg} {i : Nat}

/-- The register may be read before it is written, if control goes from each instruction to the
next. -/
def Needs (r : Option Reg) : Code → Prop
  | [] => False
  | x :: rest => r ∈ x.reads ∨ r ∉ x.writes ∧ Needs r rest

theorem needs_append : Needs r (a ++ b) ↔ Needs r a ∨ (∀ x ∈ a, r ∉ x.writes) ∧ Needs r b := by
  induction a with
  | nil => simp [Needs]
  | cons x a ih =>
    rw [cons_append, Needs, ih, Needs, forall_mem_cons]
    constructor
    · rintro (h | ⟨hw, h | ⟨hall, h⟩⟩)
      · exact .inl (.inl h)
      · exact .inl (.inr ⟨hw, h⟩)
      · exact .inr ⟨⟨hw, hall⟩, h⟩
    · rintro ((h | ⟨hw, h⟩) | ⟨⟨hw, hall⟩, h⟩)
      · exact .inl h
      · exact .inr ⟨hw, .inl h⟩
      · exact .inr ⟨hw, .inr ⟨hall, h⟩⟩

theorem Needs.exists_reads (h : Needs r code) : ∃ x ∈ code, r ∈ x.reads := by
  induction code with
  | nil => cases h
  | cons x rest ih =>
    obtain h | ⟨-, h⟩ := h
    · exact ⟨x, mem_cons_self, h⟩
    · obtain ⟨y, hy, h⟩ := ih h
      exact ⟨y, mem_cons_of_mem _ hy, h⟩

theorem Needs.mem_regs (h : Needs r code) : r ∈ code.regs := by
  obtain ⟨x, hx, h⟩ := h.exists_reads
  exact mem_flatMap.mpr ⟨x, hx, mem_append_left _ h⟩

theorem labels_append (a b : Code) : labels (a ++ b) = labels a ++ labels b := filterMap_append

theorem drop_eq_cons {x : Instr} (hx : code[i]? = some x) : code.drop i = x :: code.drop (i + 1) := by
  obtain ⟨hlt, rfl⟩ := List.getElem?_eq_some_iff.mp hx
  exact drop_eq_getElem_cons hlt

/-- If no label that is jumped to needs the register, it is live only where the code behind needs
it. -/
theorem LiveAfter.needs (h : code.LiveAfter r i)
    (hdests : ∀ x ∈ code, ∀ l, some l ∈ x.dests → ∀ m, code.PlacesAt l m → ¬ Needs r (code.drop m)) :
    Needs r (code.drop (i + 1)) := by
  have hstep : ∀ {i m}, code.Follows i m → Needs r (code.drop m) → Needs r (code.drop (i + 1)) := by
    rintro i m ⟨x, hx, ⟨-, rfl, -⟩ | ⟨l, hl, hplace⟩⟩ hm
    · exact hm
    · exact absurd hm (hdests x (mem_of_getElem? hx) l hl m hplace)
  induction h with
  | read hf hx hr =>
    refine hstep hf ?_
    rw [drop_eq_cons hx]
    exact .inl hr
  | pass hf hx hw _ ih =>
    refine hstep hf ?_
    rw [drop_eq_cons hx]
    exact .inr ⟨hw, ih⟩

end Code

namespace Allocation

open Code

variable {cat : Catalog} {fp r : Option Reg} {k : Nat} {c p q a b : Code} {x : Instr}

/-- Every instruction leaves room for the machine registers that are named in the code. -/
def Roomy (cat : Catalog) (fp : Option Reg) (k : Nat) (c : Code) : Prop :=
  ∃ U : Finset (Option Reg), (∀ r ∈ c.regs, r ∈ cat.regs → r ∈ U) ∧
    ∀ x ∈ c, (virtuals cat fp (x.reads ++ x.writes)).card + U.card ≤ k

/-- Code that needs no machine registers and has no labels inside. -/
structure Stretch (cat : Catalog) (fp : Option Reg) (k : Nat) (c : Code) : Prop where
  room : Roomy cat fp k c
  not_needs : ∀ r ∈ cat.regs, ¬ Needs r c
  unlabelled : ∀ x ∈ c.tail, x.label = none

/-- Stretches one after the other. -/
inductive Stretches (cat : Catalog) (fp : Option Reg) (k : Nat) : Code → Prop
  | nil : Stretches cat fp k []
  | cons {c rest : Code} (hc : Stretch cat fp k c) (h : Stretches cat fp k rest) :
      Stretches cat fp k (c ++ rest)

theorem Stretch.stretches (h : Stretch cat fp k c) : Stretches cat fp k c := by
  rw [← append_nil c]
  exact .cons h .nil

namespace Stretches

theorem append (h : Stretches cat fp k p) (h' : Stretches cat fp k q) : Stretches cat fp k (p ++ q) := by
  induction h with
  | nil => exact h'
  | cons hc _ ih =>
    rw [append_assoc]
    exact .cons hc ih

theorem not_needs (h : Stretches cat fp k q) (hr : r ∈ cat.regs) : ¬ Needs r q := by
  induction h with
  | nil => exact id
  | cons hc _ ih =>
    rw [needs_append]
    rintro (h | ⟨-, h⟩)
    · exact hc.not_needs r hr h
    · exact ih h

/-- Stretches begin at every label. -/
theorem of_labelled (h : Stretches cat fp k q) (hq : q = a ++ x :: b) (hx : x.label ≠ none) :
    Stretches cat fp k (x :: b) := by
  induction h generalizing a with
  | nil => cases a <;> cases hq
  | @cons c rest hc hrest ih =>
    obtain ⟨d, rfl, hd⟩ | ⟨d, rfl, hd⟩ := append_eq_append_iff.mp hq
    · exact ih hd
    · cases d with
      | nil =>
        have hd : x :: b = rest := hd
        exact hd ▸ hrest
      | cons y d =>
        obtain ⟨rfl, rfl⟩ := List.cons.inj hd
        -- a label stands at the begin of its stretch
        cases a with
        | nil => exact .cons hc hrest
        | cons z a => exact absurd (hc.unlabelled x (by simp)) hx

end Stretches

/-- What is in use around an instruction of code that stretches follow. -/
theorem Roomy.exists_room (hp : Roomy cat fp k p) (hq : Stretches cat fp k q) (h : p = a ++ x :: b) :
    ∃ U : Finset (Option Reg), (virtuals cat fp (x.reads ++ x.writes)).card + U.card ≤ k ∧
      ∀ r ∈ cat.regs, (r ∈ x.reads ∨ r ∈ x.writes ∨ Needs r (b ++ q)) → r ∈ U := by
  obtain ⟨U, hU, hroom⟩ := hp
  refine ⟨U, hroom x (by simp [h]), fun r hr hrx => hU r ?_ hr⟩
  rw [h, regs_append, mem_append]
  refine .inr ?_
  rw [regs, flatMap_cons, mem_append, mem_append]
  obtain hrx | hrx | hrx := hrx
  · exact .inl (.inl hrx)
  · exact .inl (.inr hrx)
  · obtain hb | ⟨-, hb⟩ := needs_append.mp hrx
    · exact .inr hb.mem_regs
    · exact absurd hb (hq.not_needs hr)

theorem Stretches.exists_room (hq : Stretches cat fp k q) (h : q = a ++ x :: b) :
    ∃ U : Finset (Option Reg), (virtuals cat fp (x.reads ++ x.writes)).card + U.card ≤ k ∧
      ∀ r ∈ cat.regs, (r ∈ x.reads ∨ r ∈ x.writes ∨ Needs r b) → r ∈ U := by
  induction hq generalizing a with
  | nil => cases a <;> cases h
  | @cons c rest hc hrest ih =>
    obtain ⟨d, rfl, hd⟩ | ⟨d, rfl, hd⟩ := append_eq_append_iff.mp h
    · exact ih hd
    · cases d with
      | nil =>
        exact ih (a := []) hd.symm
      | cons y d =>
        obtain ⟨rfl, rfl⟩ := List.cons.inj hd
        exact hc.room.exists_room hrest rfl

/-! ### Pressure -/

/-- The pressure at an instruction, by what is in use around it. -/
theorem pressure_le {code : Code} {g : Flow} {i : Nat} (hg : Flow.ofCode code = .ok g)
    (U : Finset (Option Reg)) (hU : ∀ r ∈ cat.regs, r ≠ fp →
      (r ∈ x.reads ∨ r ∈ x.writes ∨ code.LiveAfter r i) → r ∈ U) :
    pressure cat fp (.ofFlow g code fp) i x ≤
      (virtuals cat fp (x.reads ++ x.writes)).card + U.card := by
  have hdesc := Liveness.ofFlow_describes hg fp
  have hafter : ∀ r, r ∈ (Liveness.ofFlow g code fp).regsAfter i → code.LiveAfter r i := by
    intro r hr
    obtain ⟨n, hn, rfl⟩ := mem_map.mp hr
    obtain ⟨r, hname, hlive⟩ := (hdesc.after i n).mp (Bitmap.mem_toList.mp hn)
    exact hname.reg_eq ▸ hlive
  unfold pressure
  refine Nat.add_le_add_left (Finset.card_le_card fun r hr => ?_) _
  simp only [held, isLiveBefore, mem_toFinset, mem_filter, Bool.and_eq_true,
    Bool.or_eq_true, decide_eq_true_eq, contains_iff_mem] at hr
  obtain ⟨hmem, hfp, ((h | ⟨h, -⟩) | h) | h⟩ := hr
  · exact hU r hmem hfp (.inl h)
  · exact hU r hmem hfp (.inr (.inr (hafter r h)))
  · exact hU r hmem hfp (.inr (.inr (hafter r h)))
  · exact hU r hmem hfp (.inr (.inl h))

/-- Every instruction fits in code that is made of stretches, behind a first part that is not jumped
to. -/
theorem pressure_le_of_stretches {g : Flow} {i : Nat} (hg : Flow.ofCode (p ++ q) = .ok g)
    (hp : Roomy cat fp k p) (hq : Stretches cat fp k q)
    (hdests : ∀ x ∈ p ++ q, ∀ l, some l ∈ x.dests → l ∈ q.labels) (hx : (p ++ q)[i]? = some x) :
    pressure cat fp (.ofFlow g (p ++ q) fp) i x ≤ k := by
  have hnodup := (Flow.ofCode_isOk_iff.mp ⟨g, hg⟩).nodup
  rw [labels_append] at hnodup
  -- where control is jumped to, no machine register is needed
  have hjump : ∀ r ∈ cat.regs, ∀ y ∈ p ++ q, ∀ l, some l ∈ y.dests → ∀ m,
      (p ++ q).PlacesAt l m → ¬ Needs r ((p ++ q).drop m) := by
    rintro r hr y hy l hl m ⟨z, hz, hlabel⟩
    have hle : p.length ≤ m := by
      by_contra hlt
      rw [getElem?_append_left (by omega)] at hz
      exact disjoint_of_nodup_append hnodup
        (mem_filterMap.mpr ⟨z, mem_of_getElem? hz, hlabel⟩) (hdests y hy l hl)
    rw [getElem?_append_right hle] at hz
    have hsplit := take_append_drop (m - p.length) q
    rw [drop_eq_cons hz] at hsplit
    rw [drop_append, drop_of_length_le hle, nil_append, drop_eq_cons hz]
    exact (hq.of_labelled hsplit.symm (by simp [hlabel])).not_needs hr
  have hlive : ∀ r ∈ cat.regs, (p ++ q).LiveAfter r i → Needs r ((p ++ q).drop (i + 1)) :=
    fun r hr h => h.needs (hjump r hr)
  obtain ⟨U, hcard, hU⟩ : ∃ U : Finset (Option Reg),
      (virtuals cat fp (x.reads ++ x.writes)).card + U.card ≤ k ∧ ∀ r ∈ cat.regs,
        (r ∈ x.reads ∨ r ∈ x.writes ∨ Needs r ((p ++ q).drop (i + 1))) → r ∈ U := by
    obtain hlt | hge := Nat.lt_or_ge i p.length
    · rw [getElem?_append_left hlt] at hx
      have hsplit := take_append_drop i p
      rw [drop_eq_cons hx] at hsplit
      rw [drop_append_of_le_length (by omega)]
      exact hp.exists_room hq hsplit.symm
    · rw [getElem?_append_right hge] at hx
      have hsplit := take_append_drop (i - p.length) q
      rw [drop_eq_cons hx] at hsplit
      rw [drop_append, drop_of_length_le (by omega), nil_append,
        show i + 1 - p.length = i - p.length + 1 by omega]
      exact hq.exists_room hsplit.symm
  refine (pressure_le hg U fun r hr _ hrx => hU r hr ?_).trans hcard
  exact hrx.imp_right fun h => h.imp_right (hlive r hr)

end Allocation

end Codegen
