import Codegen.Proofs.Selection.Outline

/-!
# What instructions refer to

An instruction that is filled in refers to the registers of the leaves, to the one for the value, to
machine registers that its recipe names, and to those that hold arguments (`IsInstance`). The
instructions of a tidy template can always be filled in (`fill_isInstance`).
-/

namespace Codegen

open List

/-- The label that a node places. -/
def Node.placed? : Node → Option Label
  | .stmt (.place l) => l
  | _ => none

theorem Node.of_head_isBranch {x : Node} (h : x.head.isBranch = true) :
    ∃ c l r t f, x = .stmt (.cjump c l r t f) := by
  rcases x with e | s
  · cases e <;> cases h
  · cases s with
    | cjump c l r t f => exact ⟨c, l, r, t, f, rfl⟩
    | missing | move | eval | jump | seq | place => cases h

theorem Node.of_head_jump {x : Node} (h : x.head = .jump) : ∃ d ts, x = .stmt (.jump d ts) := by
  rcases x with e | s
  · cases e <;> cases h
  · cases s with
    | jump d ts => exact ⟨d, ts, rfl⟩
    | missing | move | eval | cjump | seq | place => cases h

theorem Node.of_head_place {x : Node} (h : x.head = .place) : ∃ l, x = .stmt (.place l) := by
  rcases x with e | s
  · cases e <;> cases h
  · cases s with
    | place l => exact ⟨l, rfl⟩
    | missing | move | eval | jump | cjump | seq => cases h

namespace Selection

variable {x : Node} {leaves : List Leaf} {dst : Option Reg} {used : List (Option Reg)}

/-- What parts add to a draft. -/
structure Draft.Adds (x : Node) (leaves : List Leaf) (dst : Option Reg) (parts : List Part)
    (d d' : Draft) : Prop where
  reads : ∀ u, u ∈ d'.reads ↔ u ∈ d.reads ∨
    ∃ p ∈ parts, ∃ access, referred leaves dst p = some (u, access) ∧ access.reads = true
  writes : ∀ u, u ∈ d'.writes ↔ u ∈ d.writes ∨
    ∃ p ∈ parts, ∃ access, referred leaves dst p = some (u, access) ∧ access.writes = true
  label : d'.label = if .label ∈ parts then x.placed? else d.label

namespace Draft

variable {d d₁ d' : Draft} {p : Part} {parts parts' : List Part}

theorem Adds.refl (d : Draft) : Adds x leaves dst [] d d := ⟨by simp, by simp, by simp⟩

theorem Adds.trans (h : Adds x leaves dst parts d d₁) (h' : Adds x leaves dst parts' d₁ d') :
    Adds x leaves dst (parts ++ parts') d d' := by
  refine ⟨fun u => ?_, fun u => ?_, ?_⟩
  · rw [h'.reads, h.reads, or_assoc]
    simp only [mem_append, or_and_right, exists_or]
  · rw [h'.writes, h.writes, or_assoc]
    simp only [mem_append, or_and_right, exists_or]
  · rw [h'.label, h.label]
    by_cases h1 : .label ∈ parts <;> by_cases h2 : .label ∈ parts' <;> simp [h1, h2]

theorem adds_say (d : Draft) (s : String) (hp : referred leaves dst p = none) (hl : p ≠ .label) :
    Adds x leaves dst [p] d (d.say s) :=
  ⟨by simp [say, hp], by simp [say, hp], by simp [say, hl.symm]⟩

theorem adds_refer (d : Draft) {r : Option Reg} {access : Access}
    (hp : referred leaves dst p = some (r, access)) (hl : p ≠ .label) :
    Adds x leaves dst [p] d (d.refer r access) := by
  refine ⟨fun u => ?_, fun u => ?_, ?_⟩
  · cases access <;> simp [refer, hp, Access.reads, mem_slotIn, @eq_comm _ u r]
  · cases access <;> simp [refer, hp, Access.writes, mem_slotIn, @eq_comm _ u r]
  · cases access <;> simp [refer, hl.symm]

theorem Takes.adds (h : d.Takes x leaves dst p d') : Adds x leaves dst [p] d d' := by
  cases h with
  | say _ _ hreg hp => exact d.adds_say _ hreg hp
  | refer _ hreg hp => exact d.adds_refer hreg hp
  | lose hdst => exact d.adds_refer (by rw [referred, hdst]) nofun
  | place hx =>
    exact ⟨by simp [Draft.say, referred], by simp [Draft.say, referred], by simp [hx, Node.placed?]⟩

theorem foldlM_adds (h : parts.foldlM (Draft.part x leaves dst) d = .ok d') :
    Adds x leaves dst parts d d' :=
  of_foldlM .refl (fun hp hrest => hp.adds.trans hrest) h

end Draft

/-- The instruction is the recipe with its parts filled in. -/
structure IsInstance (x : Node) (leaves : List Leaf) (dst : Option Reg) (used : List (Option Reg))
    (r : Recipe) (i : Instr) : Prop where
  reads : ∀ u, u ∈ i.reads ↔
    (∃ p ∈ r.parts, ∃ access, referred leaves dst p = some (u, access) ∧ access.reads = true) ∨
      u ∈ r.uses.map some ∨ r.isCall = true ∧ u ∈ used
  writes : ∀ u, u ∈ i.writes ↔
    (∃ p ∈ r.parts, ∃ access, referred leaves dst p = some (u, access) ∧ access.writes = true) ∨
      u ∈ r.defs.map some
  label : i.label = if .label ∈ r.parts then x.placed? else none
  dests : destsOf x r = .ok (i.dests, i.next)

variable {r : Recipe} {i : Instr}

theorem isInstance_of_eq (h : instance? x leaves dst used r = .ok i) :
    IsInstance x leaves dst used r i := by
  obtain ⟨d, dests, hd, hdests, rfl⟩ := of_instance? h
  have hadds := Draft.foldlM_adds hd
  refine ⟨fun u => ?_, fun u => ?_, hadds.label, hdests⟩
  · have hreads : u ∈ (d.finish r used dests).reads ↔
        u ∈ d.reads ∨ u ∈ r.uses.map some ∨ r.isCall = true ∧ u ∈ used := by
      unfold Draft.finish
      dsimp only
      split
      · rename_i hcall
        rw [mem_withRegs_iff, mem_withRegs_iff, or_assoc]
        simp only [hcall, true_and]
      · rename_i hcall
        rw [mem_withRegs_iff]
        simp [hcall]
    rw [hreads, hadds.reads]
    simp
  · have hwrites : u ∈ (d.finish r used dests).writes ↔ u ∈ d.writes ∨ u ∈ r.defs.map some :=
      mem_withRegs_iff
    rw [hwrites, hadds.writes]
    simp

namespace IsInstance

/-- A machine register that the recipe writes is written. -/
theorem mem_writes (h : IsInstance x leaves dst used r i) {q : Reg} (hq : q ∈ r.fixedWrites) :
    some q ∈ i.writes := by
  rw [h.writes]
  obtain hq | hq := mem_append.mp hq
  · obtain ⟨p, hp, hfix⟩ := mem_filterMap.mp hq
    cases p with
    | fixed w access =>
      rw [Part.fixed?, Option.ite_none_right_eq_some, Option.some.injEq] at hfix
      obtain ⟨hwrites, rfl⟩ := hfix
      exact .inl ⟨_, hp, access, rfl, hwrites⟩
    | text | leaf | out | onTrue | onFalse | label => cases hfix
  · exact .inr (mem_map_of_mem hq)

/-- What a part refers to: a leaf, the value, or a register of the machine. -/
theorem referred_cases {p : Part} {u : Option Reg} {access : Access} {use : Access → Bool}
    (h : referred leaves dst p = some (u, access)) (huse : use access = true) :
    .temp u ∈ leaves ∨ p = .out access ∧ u = dst ∨ ∃ q, p.fixed? use = some q ∧ u = some q := by
  cases p with
  | leaf n a =>
    rw [referred] at h
    split at h
    · rename_i r hr
      cases h
      exact .inl (mem_of_getElem? hr)
    · cases h
  | out a =>
    cases h
    exact .inr (.inl ⟨rfl, rfl⟩)
  | fixed q a =>
    cases h
    exact .inr (.inr ⟨q, if_pos huse, rfl⟩)
  | text | onTrue | onFalse | label => cases h

/-- What an instruction reads: a leaf, the value, a register of the machine, or an argument. -/
theorem reads_cases (h : IsInstance x leaves dst used r i) {u : Option Reg} (hu : u ∈ i.reads) :
    .temp u ∈ leaves ∨ (∃ access, .out access ∈ r.parts) ∧ u = dst ∨
      (∃ q ∈ r.fixedReads, u = some q) ∨ r.isCall = true ∧ u ∈ used := by
  obtain ⟨p, hp, access, href, hacc⟩ | hu | hu := (h.reads u).mp hu
  · obtain hl | ⟨rfl, hd⟩ | ⟨q, hq, rfl⟩ := referred_cases href hacc
    · exact .inl hl
    · exact .inr (.inl ⟨⟨access, hp⟩, hd⟩)
    · exact .inr (.inr (.inl ⟨q, mem_append_left _ (mem_filterMap.mpr ⟨p, hp, hq⟩), rfl⟩))
  · obtain ⟨q, hq, rfl⟩ := mem_map.mp hu
    exact .inr (.inr (.inl ⟨q, mem_append_right _ hq, rfl⟩))
  · exact .inr (.inr (.inr hu))

theorem writes_cases (h : IsInstance x leaves dst used r i) {u : Option Reg} (hu : u ∈ i.writes) :
    .temp u ∈ leaves ∨ (∃ access, .out access ∈ r.parts) ∧ u = dst ∨
      ∃ q ∈ r.fixedWrites, u = some q := by
  obtain ⟨p, hp, access, href, hacc⟩ | hu := (h.writes u).mp hu
  · obtain hl | ⟨rfl, hd⟩ | ⟨q, hq, rfl⟩ := referred_cases href hacc
    · exact .inl hl
    · exact .inr (.inl ⟨⟨access, hp⟩, hd⟩)
    · exact .inr (.inr ⟨q, mem_append_left _ (mem_filterMap.mpr ⟨p, hp, hq⟩), rfl⟩)
  · obtain ⟨q, hq, rfl⟩ := mem_map.mp hu
    exact .inr (.inr ⟨q, mem_append_right _ hq, rfl⟩)

end IsInstance

variable {P : Option Reg → Prop} {names : List String} {t : Template} {kinds : List LeafKind}

/-- A leaf can be filled in. -/
theorem exists_holeTokens_leaf (x : Node) (dst : Option Reg) (access : Access) {n : Nat}
    (hleaves : List.Forall₂ (Leaf.Settled P) kinds leaves) (hlt : n < kinds.length) :
    ∃ ts, holeTokens? x leaves dst (.leaf n access) = some ts := by
  have hlt' : n < leaves.length := hleaves.length_eq ▸ hlt
  have hsettled := (forall₂_iff_get.mp hleaves).2 n hlt hlt'
  rw [get_eq_getElem, get_eq_getElem] at hsettled
  rw [holeTokens?, getElem?_eq_getElem hlt']
  cases hk : kinds[n] with
  | int =>
    obtain ⟨v, hv⟩ := Leaf.settled_int.mp (hk ▸ hsettled)
    exact ⟨_, by rw [hv]⟩
  | addr =>
    obtain ⟨l, hl⟩ := Leaf.settled_addr.mp (hk ▸ hsettled)
    exact ⟨_, by rw [hl]⟩
  | temp =>
    obtain ⟨r, hr, -⟩ := Leaf.settled_temp.mp (hk ▸ hsettled)
    exact ⟨_, by rw [hr]⟩

/-- The parts of a recipe can be filled in for what the pattern matches. -/
theorem exists_holeTokens {y : Node} {p : Part} (hp : p.suits y = true) (hhead : y.head = x.head)
    (hleaves : List.Forall₂ (Leaf.Settled P) y.leafKinds leaves)
    (hout : ∀ access, p = .out access → dst.isSome = true) :
    ∃ ts, holeTokens? x leaves dst p = some ts := by
  cases p with
  | text | fixed => exact ⟨_, rfl⟩
  | leaf n access => exact exists_holeTokens_leaf x dst access hleaves (of_decide_eq_true hp)
  | out access =>
    obtain ⟨d, rfl⟩ := Option.isSome_iff_exists.mp (hout access rfl)
    exact ⟨_, rfl⟩
  | onTrue | onFalse =>
    rw [Part.suits, hhead] at hp
    obtain ⟨c, l, r, t, f, rfl⟩ := Node.of_head_isBranch hp
    exact ⟨_, rfl⟩
  | label =>
    rw [Part.suits, hhead, decide_eq_true_eq] at hp
    obtain ⟨l, rfl⟩ := Node.of_head_place hp
    exact ⟨_, rfl⟩

/-- A recipe that fits what the pattern matches has an instance. -/
theorem exists_isInstance {y : Node} (hr : r.suits names y = true) (hkept : r.isKept dst = true)
    (hhead : y.head = x.head) (hleaves : List.Forall₂ (Leaf.Settled P) y.leafKinds leaves)
    (used : List (Option Reg)) :
    ∃ i, instance? x leaves dst used r = .ok i ∧ IsInstance x leaves dst used r i := by
  simp only [Recipe.suits, Bool.and_eq_true, all_eq_true] at hr
  obtain ⟨⟨⟨⟨hparts, -⟩, hbranch⟩, -⟩, -⟩ := hr
  have hholes : ∀ p ∈ r.parts, ∃ ts, holeTokens? x leaves dst p = some ts := fun p hp => by
    refine exists_holeTokens (hparts p hp) hhead hleaves fun access hout => ?_
    -- what makes a value is left out without a register for it
    subst hout
    have hmakes : r.makesValue = true := any_eq_true.mpr ⟨_, hp, hparts _ hp⟩
    rw [Recipe.isKept, hmakes] at hkept
    simpa [Option.isSome_iff_ne_none] using hkept
  obtain ⟨d, hd⟩ := Draft.exists_foldlM {} hholes
  obtain ⟨dests, hdests⟩ : ∃ dests, destsOf x r = .ok dests := by
    unfold destsOf
    split
    · rename_i hbr
      rw [hhead, hbr, Bool.not_true, Bool.false_or, Bool.or_eq_true, decide_eq_true_eq] at hbranch
      obtain h | h := hbranch
      · obtain ⟨c, l, r, t, f, rfl⟩ := Node.of_head_isBranch h
        exact ⟨_, rfl⟩
      · obtain ⟨d, ts, rfl⟩ := Node.of_head_jump h
        exact ⟨_, rfl⟩
    · exact ⟨_, rfl⟩
  exact ⟨_, instance?_eq hd hdests, isInstance_of_eq (instance?_eq hd hdests)⟩

/-- The instructions of a tidy template are filled in. -/
theorem fill_isInstance {reg? : String → Option Reg} (ht : t.Tidy reg? names)
    (hhead : t.pattern.head = x.head)
    (hleaves : List.Forall₂ (Leaf.Settled P) t.pattern.leafKinds leaves) (dst : Option Reg)
    (used : List (Option Reg)) : ∃ code,
      List.Forall₂ (IsInstance x leaves dst used) (t.recipes.filter (Recipe.isKept dst)) code ∧
        ∀ st, fill x t leaves dst used t.recipes st = .ok () { st with code := st.code ++ code } := by
  obtain ⟨code, hcode⟩ : ∃ code, List.Forall₂ (fun r i =>
      instance? x leaves dst used r = .ok i ∧ IsInstance x leaves dst used r i)
      (t.recipes.filter (Recipe.isKept dst)) code :=
    exists_forall₂_iff.mpr fun r hr => exists_isInstance (ht.suits r (mem_of_mem_filter hr))
      (of_mem_filter hr) hhead hleaves used
  exact ⟨code, hcode.imp fun r i h => h.2, fun st =>
    fill_eq_ok_iff.mpr ⟨code, hcode.imp fun r i h => h.1, rfl⟩⟩

end Selection

end Codegen
