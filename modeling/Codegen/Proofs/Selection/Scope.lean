import Codegen.Proofs.Canonical.Shape
import Codegen.Proofs.Selection.Progress

/-!
# The scope of selected code

Wherever selection succeeds, what it selects stays in scope (`Instr.StaysIn`): it reads the registers
of the tree and fresh ones, and it writes only fresh registers, the one for the value, and those that
the tree moves to. The registers of the machine that templates and calls name stand apart. Here nothing
is assumed of a tree but the registers that it names.
-/

namespace Codegen

open Pass Semantics Selection List

/-- The instruction reads registers of which `P` holds and writes registers of which `W` holds, apart
from given ones. It writes none where it jumps, and reads none where it places a label. -/
structure Instr.StaysIn (us : List (Option Reg)) (P W : Option Reg → Prop) (i : Instr) : Prop where
  reads : ∀ r ∈ i.reads, P r ∨ r ∈ us
  writes : ∀ r ∈ i.writes, W r ∨ r ∈ us
  branch : i.dests ≠ [] → i.writes = []
  label : i.label ≠ none → i.reads = []

theorem Instr.StaysIn.mono {us us' : List (Option Reg)} {P P' W W' : Option Reg → Prop} {i : Instr}
    (h : i.StaysIn us P W) (hus : ∀ r ∈ us, r ∈ us') (hP : ∀ r, P r → P' r) (hW : ∀ r, W r → W' r) :
    i.StaysIn us' P' W' :=
  { h with
    reads := fun r hr => (h.reads r hr).imp (hP r) (hus r)
    writes := fun r hr => (h.writes r hr).imp (hW r) (hus r) }

theorem Instr.StaysIn.of_straight {us : List (Option Reg)} {P W : Option Reg → Prop} {i : Instr}
    (hreads : ∀ r ∈ i.reads, P r ∨ r ∈ us) (hwrites : ∀ r ∈ i.writes, W r ∨ r ∈ us)
    (hlabel : i.label = none) (hdests : i.dests = []) : i.StaysIn us P W :=
  ⟨hreads, hwrites, fun h => absurd hdests h, fun h => absurd hlabel h⟩

/-- The scope of a selection: its supply has come to `s`, of what it hands out both `P` and `W` hold, and
templates write to no leaf but the register that a move goes to. -/
structure Target.Scope (t : Target) (base : Supply) (names : List String) (s : Supply)
    (P W : Supply → Option Reg → Prop) : Prop where
  apt : t.Apt base names
  confined : ∀ tpl ∈ t.catalog.templates, tpl.Confined
  reads : s.Keeps P
  writes : s.Keeps W
  le : ∀ c u, W c u → P c u

/-- The statement is no sequence, names registers of which `P` holds, and moves only to those of which
`W` holds. -/
structure Stmt.Names (P W : Option Reg → Prop) (x : Stmt) : Prop where
  single : ∀ list, x ≠ .seq list
  regs : ∀ r ∈ regsIn x, P r
  dst : ∀ d e, x = .move (.temp d) e → W d

theorem Stmt.Names.mono {P P' W W' : Option Reg → Prop} {x : Stmt} (h : x.Names P W)
    (hP : ∀ r, P r → P' r) (hW : ∀ r, W r → W' r) : x.Names P' W' :=
  ⟨h.single, fun r hr => hP r (h.regs r hr), fun d e hx => hW d (h.dst d e hx)⟩

/-- A move to a register is matched by one to the register that is its first leaf. -/
theorem Stmt.head?_leaves_of_bind {fits : Int64 → Bool} {p x : Stmt} {b : Binding}
    (h : p.bind fits x = some b) (hp : (Node.stmt p).isMoveToReg = true) :
    ∃ r e, x = .move (.temp r) e ∧ b.leaves.head? = some (.temp r) := by
  cases p with
  | missing | eval | jump | cjump | seq | place => cases hp
  | move d s =>
    cases d with
    | missing | int | addr | bin | mem | call | eseq => cases hp
    | temp q =>
      cases x with
      | missing | eval | jump | cjump | seq | place => cases h
      | move d' s' =>
        cases d' with
        | missing | int | addr | bin | mem | call | eseq => cases h
        | temp r =>
          obtain ⟨c, -, rfl⟩ := Option.map_eq_some_iff.mp h
          exact ⟨r, s', rfl, rfl⟩

/-- What matches an expression is no move. -/
theorem not_isMoveToReg_of_head {p : Node} {x : Expr} (h : p.head = (Node.expr x).head) :
    ¬ p.isMoveToReg = true := by
  rw [Node.isMoveToReg.eq_def]
  split
  · cases x <;> cases h
  · exact Bool.false_ne_true

namespace Selection

variable {x : Node} {leaves : List Leaf} {dst : Option Reg} {used us : List (Option Reg)} {r : Recipe}
  {i : Instr} {tpl : Template} {names : List String} {reg? : String → Option Reg}

/-! ### Filled-in templates -/

/-- A recipe that is filled in refers to the value only if there is a register for it. -/
theorem exists_dst_of_out {y : Node} {access : Access} (hsuits : r.suits names y = true)
    (hkept : r.isKept dst = true) (hout : .out access ∈ r.parts) : ∃ d, dst = some d := by
  simp only [Recipe.suits, Bool.and_eq_true, all_eq_true] at hsuits
  have hmakes : r.makesValue = true := any_eq_true.mpr ⟨_, hout, hsuits.1.1.1.1 _ hout⟩
  cases dst with
  | none =>
    rw [Recipe.isKept, hmakes] at hkept
    cases hkept
  | some d => exact ⟨d, rfl⟩

/-- Only a template for jumps has an instruction with destinations. -/
theorem IsInstance.isBranch (h : IsInstance x leaves dst used r i) (hi : i.dests ≠ []) :
    r.isBranch = true := by
  by_contra hbr
  have hdests := h.dests
  rw [destsOf, if_neg hbr] at hdests
  exact hi (congrArg Prod.fst (Except.ok.inj hdests)).symm

/-- What places a label reads nothing. -/
theorem IsInstance.reads_eq_nil (h : IsInstance x leaves dst used r i) (ht : tpl.Tidy reg? names)
    (hr : r ∈ tpl.recipes) (hkept : r.isKept dst = true) (hlabel : i.label ≠ none) : i.reads = [] := by
  have hpart : .label ∈ r.parts := by
    by_contra hnot
    rw [h.label, if_neg hnot] at hlabel
    exact hlabel rfl
  have hsuits := ht.suits r hr
  simp only [Recipe.suits, Bool.and_eq_true, all_eq_true] at hsuits
  obtain ⟨⟨⟨⟨hparts, -⟩, -⟩, hcall⟩, -⟩ := hsuits
  have hhead : tpl.pattern.head = .place := of_decide_eq_true (hparts _ hpart)
  obtain ⟨l, hl⟩ := Node.of_head_place hhead
  obtain ⟨hlen, hvalue⟩ := ht.place hhead
  obtain ⟨r', hr'⟩ := length_eq_one_iff.mp hlen
  rw [hr', mem_singleton] at hr
  subst hr
  have hneeds := ht.needs dst
  rw [hr', filter_cons_of_pos hkept] at hneeds
  simp only [Recipe.needs, filter_nil, append_nil, map_eq_nil_iff] at hneeds
  refine eq_nil_iff_forall_not_mem.mpr fun u hu => ?_
  obtain ⟨p, hp, access, href, hacc⟩ | hu | ⟨hc, -⟩ := (h.reads u).mp hu
  · cases p with
    | leaf n a =>
      have hlt : n < tpl.pattern.leafKinds.length := of_decide_eq_true (hparts _ hp)
      rw [hl] at hlt
      exact absurd hlt (Nat.not_lt_zero n)
    | out a =>
      have hmakes : r.makesValue = true := any_eq_true.mpr ⟨_, hp, hparts _ hp⟩
      rw [hvalue r (by simp [hr'])] at hmakes
      cases hmakes
    | fixed q a =>
      cases href
      have hmem : q ∈ r.fixedReads :=
        mem_append_left _ (mem_filterMap.mpr ⟨_, hp, if_pos hacc⟩)
      rw [hneeds] at hmem
      cases hmem
    | text | onTrue | onFalse | label => cases href
  · rw [(append_eq_nil_iff.mp hneeds).2] at hu
    cases hu
  · rw [hc, hhead] at hcall
    simp at hcall

/-- What is known of a template and of the registers that it is filled in with. -/
structure Scoped (reg? : String → Option Reg) (names : List String) (P W : Option Reg → Prop)
    (x : Node) (tpl : Template) (leaves : List Leaf) (dst : Option Reg) (used : List (Option Reg)) :
    Prop where
  tidy : tpl.Tidy reg? names
  confined : tpl.Confined
  head : tpl.pattern.head = x.head
  leaf : ∀ u, .temp u ∈ leaves → P u
  move : tpl.pattern.isMoveToReg = true → ∀ u, leaves.head? = some (.temp u) → W u
  value : ∀ d, dst = some d → W (some d)
  stmt : ∀ s, x = .stmt s → dst = none
  used : ∀ u ∈ used, u ∈ names.map reg?
  writes : ∀ u, W u → P u

theorem Scoped.staysIn {P W : Option Reg → Prop}
    (h : Scoped reg? names P W x tpl leaves dst used) (hr : r ∈ tpl.recipes)
    (hkept : r.isKept dst = true) (hi : IsInstance x leaves dst used r i) :
    i.StaysIn (names.map reg?) P W := by
  have hsuits := h.tidy.suits r hr
  have hout {access : Access} (hp : .out access ∈ r.parts) : W dst := by
    obtain ⟨d, rfl⟩ := exists_dst_of_out hsuits hkept hp
    exact h.value d rfl
  simp only [Recipe.suits, Bool.and_eq_true, all_eq_true, contains_iff_mem] at hsuits
  obtain ⟨⟨⟨⟨hparts, hnames⟩, hbranch⟩, -⟩, -⟩ := hsuits
  have hfixed : ∀ q ∈ r.fixedReads ++ r.fixedWrites, some q ∈ names.map reg? := fun q hq =>
    mem_map.mpr ⟨q.name, hnames q hq, h.tidy.found r hr q hq⟩
  -- what is written: the register moved to, the value, or a register of the machine
  have hwrites {u : Option Reg} (hu : u ∈ i.writes) :
      tpl.pattern.isMoveToReg = true ∧ W u ∨ (∃ d, dst = some d) ∧ W u ∨
        ∃ q ∈ r.fixedWrites, u = some q := by
    obtain ⟨p, hp, access, href, hacc⟩ | hu := (hi.writes u).mp hu
    · cases p with
      | leaf n a =>
        have haccess : a = access := by
          rw [referred] at href
          split at href
          · exact (Prod.mk.inj (Option.some.inj href)).2
          · cases href
        obtain ⟨rfl, hmove⟩ := h.confined.leaf r hr n a hp (haccess ▸ hacc)
        refine .inl ⟨hmove, h.move hmove u ?_⟩
        rw [referred] at href
        split at href
        · rename_i w hw
          cases href
          rw [head?_eq_getElem?, hw]
        · cases href
      | out a =>
        cases href
        exact .inr (.inl ⟨exists_dst_of_out (h.tidy.suits r hr) hkept hp, hout hp⟩)
      | fixed q a =>
        cases href
        exact .inr (.inr ⟨q, mem_append_left _ (mem_filterMap.mpr ⟨_, hp, if_pos hacc⟩), rfl⟩)
      | text | onTrue | onFalse | label => cases href
    · obtain ⟨q, hq, rfl⟩ := mem_map.mp hu
      exact .inr (.inr ⟨q, mem_append_right _ hq, rfl⟩)
  refine ⟨fun u hu => ?_, fun u hu => ?_, fun hdests => ?_, hi.reads_eq_nil h.tidy hr hkept⟩
  · obtain hl | ⟨⟨access, hp⟩, rfl⟩ | ⟨q, hq, rfl⟩ | ⟨-, hu⟩ := hi.reads_cases hu
    · exact .inl (h.leaf u hl)
    · exact .inl (h.writes _ (hout hp))
    · exact .inr (hfixed q (mem_append_left _ hq))
    · exact .inr (h.used u hu)
  · obtain ⟨-, hw⟩ | ⟨-, hw⟩ | ⟨q, hq, rfl⟩ := hwrites hu
    · exact .inl hw
    · exact .inl hw
    · exact .inr (hfixed q (mem_append_right _ hq))
  · have hbr := hi.isBranch hdests
    rw [hbr, Bool.not_true, Bool.false_or, Bool.or_eq_true, decide_eq_true_eq] at hbranch
    refine eq_nil_iff_forall_not_mem.mpr fun u hu => ?_
    obtain ⟨hmove, -⟩ | ⟨⟨d, hd⟩, -⟩ | ⟨q, hq, rfl⟩ := hwrites hu
    · -- a move is no jump
      obtain hb | hj := hbranch
      · obtain ⟨c, l, w, t, f, hp⟩ := Node.of_head_isBranch hb
        rw [hp] at hmove
        cases hmove
      · obtain ⟨d, ts, hp⟩ := Node.of_head_jump hj
        rw [hp] at hmove
        cases hmove
    · -- a jump makes no value
      obtain ⟨s, hs⟩ : ∃ s, x = .stmt s := by
        rw [h.head] at hbranch
        obtain hb | hj := hbranch
        · obtain ⟨c, l, w, t, f, rfl⟩ := Node.of_head_isBranch hb
          exact ⟨_, rfl⟩
        · obtain ⟨e, ts, rfl⟩ := Node.of_head_jump hj
          exact ⟨_, rfl⟩
      rw [h.stmt s hs] at hd
      cases hd
    · rw [h.confined.branch r hr hbr] at hq
      cases hq

/-- Filling in appends the instructions of the recipes, if it succeeds. -/
theorem fill_instances (x : Node) (tpl : Template) (leaves : List Leaf) (dst : Option Reg)
    (used : List (Option Reg)) (rs : List Recipe) (st : State) :
    Ends (fill x tpl leaves dst used rs) st (fun _ st' => st'.supply = st.supply ∧
      ∃ c, st'.code = st.code ++ c ∧ List.Forall₂ (fun r i => instance? x leaves dst used r = .ok i)
        (rs.filter (Recipe.isKept dst)) c) fun _ => True := by
  refine ends_of_forall fun _ st' h => ?_
  obtain ⟨c, hc, rfl⟩ := fill_eq_ok_iff.mp h
  exact ⟨rfl, c, rfl, hc⟩

/-! ### Trees -/

variable {t : Target} {base s : Supply} {P W : Supply → Option Reg → Prop} {st st' st'' : State}

theorem find_keeps (k : Kit) (x : Node) (st : State) : Ends (find k x) st
    (fun _ st' => st'.supply = st.supply ∧ st'.code = st.code) fun _ => True := by
  unfold find
  split
  · exact ends_trap.mpr trivial
  · generalize k.catalog.find? x = o
    cases o with
    | none => exact ends_fail.mpr trivial
    | some m =>
      dsimp only
      rw [ends_bind]
      exact ends_modify.mpr (ends_pure.mpr ⟨rfl, rfl⟩)

/-- What places arguments stays in scope. -/
theorem staysIn_placeArgs {P W : Option Reg → Prop} {args : List (Option Reg)} {link : Option Reg}
    (ht : t.Apt base names) (hargs : ∀ r ∈ args, P r) (hlink : link.isSome = true → P link) :
    ∀ i ∈ (t.placeArgs args link).1, i.StaysIn (t.named names) P W := by
  intro i hi
  obtain ⟨text, rfl⟩ | ⟨r, hr, rfl⟩ | ⟨p, hp, rfl⟩ := mem_placeArgs hi
  · exact .of_straight nofun nofun rfl rfl
  · exact .of_straight (forall_mem_singleton.mpr (.inl (hargs r hr))) nofun rfl rfl
  · refine .of_straight (forall_mem_singleton.mpr (.inl ?_))
      (forall_mem_singleton.mpr (.inr ?_)) rfl rfl
    · obtain h | ⟨h, heq⟩ := mem_transfers hp
      · exact hargs _ h
      · exact heq ▸ hlink h
    · exact named_of_mem_used ht (mem_map_of_mem hp)

section Trees

variable (H : t.Scope base names s P W)
include H

theorem Matched.fill_staysIn {dst : Option Reg}
    (h : Matched t (P st.supply) (W st.supply) x tpl leaves dst)
    (hmove : tpl.pattern.isMoveToReg = true → ∀ u, leaves.head? = some (.temp u) → W st.supply u)
    (hstmt : ∀ y, x = .stmt y → dst = none) (hused : ∀ u ∈ used, u ∈ t.named names) :
    Ends (fill x tpl leaves dst used tpl.recipes) st (fun _ st' => st'.supply = st.supply ∧
      ∃ c, st'.code = st.code ++ c ∧ ∀ i ∈ c, i.StaysIn (t.named names) (P st.supply) (W st.supply))
      fun _ => True := by
  obtain ⟨b, hfind, -⟩ := h.found
  obtain ⟨hmem, hhead, -⟩ := Catalog.of_find? hfind
  have hscoped : Scoped t.catalog.reg? names (P st.supply) (W st.supply) x tpl leaves dst used :=
    ⟨H.apt.tidy tpl hmem, H.confined tpl hmem, hhead, fun u hu => by
      obtain ⟨k, -, hl⟩ := exists_mem_of_forall₂ h.leaves hu
      exact hl.2.2 u rfl, hmove, h.dst, hstmt, hused, H.le _⟩
  refine (fill_instances x tpl leaves dst used tpl.recipes st).imp ?_
  rintro - st' ⟨hsupply, c, hcode, hc⟩
  refine ⟨hsupply, c, hcode, fun i hi => ?_⟩
  obtain ⟨r, hr, hinst⟩ := exists_mem_of_forall₂ hc hi
  exact hscoped.staysIn (mem_of_mem_filter hr) (of_mem_filter hr) (isInstance_of_eq hinst)

/-- Code for an expression stays in scope. -/
theorem scope_weaves : Weaves t names s (fun _ => True) (fun c x => ∀ r ∈ regsOf x, P c r) P W
    (fun c _ _ code => ∀ i ∈ code, i.StaysIn (t.named names) (P c) (W c))
    fun c code => ∀ i ∈ code, i.StaysIn (t.named names) (P c) (W c) where
  reads := H.reads
  writes := H.writes
  joins := ⟨fun _ => forall_mem_nil _, fun hs h i hi => (h i hi).mono (fun _ => id)
    (fun _ => H.reads.mono hs) fun _ => H.writes.mono hs, fun h h' => forall_mem_append.mpr ⟨h, h'⟩⟩
  mono hs hx r hr := H.reads.mono hs (hx r hr)
  part hx he r hr := hx r (Expr.regsOf_subset_of_mem_parts he hr)
  arg hx he r hr := hx r (mem_append_left _ (mem_append_right _ (mem_regsOfAll.mpr ⟨_, he, hr⟩)))
  link hx _ r hr := hx r (mem_append_right _ hr)
  temp hx := hx _ (mem_singleton_self _)
  eseq _ := trivial
  find _ := find_keeps _ _ _
  fill hm hused := by
    obtain ⟨b, hfind, -⟩ := hm.found
    exact hm.fill_staysIn H
      (fun h => absurd h (not_isMoveToReg_of_head (Catalog.of_find? hfind).2.1)) nofun hused
  passing := H.apt.passing
  plain h := h
  call hargs hlink h := by
    refine forall_mem_append.mpr ⟨forall_mem_append.mpr ⟨staysIn_placeArgs H.apt hargs hlink, h⟩,
      fun i hi => ?_⟩
    obtain ⟨text, rfl⟩ := mem_removeArgs hi
    exact .of_straight nofun nofun rfl rfl

/-- Code for a statement stays in scope. -/
theorem selectStmt_continues (x : Stmt) (st : State) (hs : s.Grows st.supply)
    (hx : x.Names (P st.supply) (W st.supply)) :
    Ends (selectStmt t.kit x) st (fun _ => Extends (fun c code =>
      ∀ i ∈ code, i.StaysIn (t.named names) (P c) (W c)) st) fun _ => True := by
  have hweaves := scope_weaves H
  have hnode : Ends (selectNode t.kit x) st (fun _ => Extends (fun c code =>
      ∀ i ∈ code, i.StaysIn (t.named names) (P c) (W c)) st) fun _ => True := by
    refine hweaves.node (fun hs hc hc' => hweaves.joins.append (hweaves.joins.mono hs hc) hc') hs
      (fun e he r hr => hx.regs r (Stmt.regsOf_subset_of_mem_exprs e he hr)) (find_keeps _ _ st)
      fun tpl leaves st' hgrows hm => hm.fill_staysIn H (fun hmove u hu => ?_) (fun _ _ => rfl)
        (forall_mem_nil _)
    obtain ⟨b, hfind, hfirst⟩ := hm.found
    obtain ⟨-, -, hbind⟩ := Catalog.of_find? hfind
    rcases hp : tpl.pattern with p | p
    · rw [hp] at hmove
      cases hmove
    · rw [hp] at hbind hmove
      obtain ⟨r, e, rfl, hr⟩ := Stmt.head?_leaves_of_bind hbind hmove
      cases (hfirst r hr).symm.trans hu
      exact H.writes.mono hgrows (hx.dst _ e rfl)
  cases x with
  | missing =>
    rw [selectStmt]
    exact ends_fail.mpr trivial
  | seq list => exact absurd rfl (hx.single list)
  | eval e =>
    rw [selectStmt]
    exact hweaves.expr e none st hs hx.regs (by simp)
  | move | jump | cjump | place =>
    rw [selectStmt]
    exact hnode

/-- Code for statements one after the other stays in scope. -/
theorem selectStmts_continues (xs : List Stmt) (st : State) (hs : s.Grows st.supply)
    (hxs : ∀ x ∈ xs, x.Names (P st.supply) (W st.supply)) :
    Ends (selectStmts t.kit xs) st (fun _ => Extends (fun c code =>
      ∀ i ∈ code, i.StaysIn (t.named names) (P c) (W c)) st) fun _ => True := by
  induction xs generalizing st with
  | nil =>
    rw [selectStmts]
    exact ends_pure.mpr (.of_same (scope_weaves H).joins rfl rfl)
  | cons x xs ih =>
    rw [forall_mem_cons] at hxs
    rw [selectStmts]
    refine (selectStmt_continues H x st hs hxs.1).bind ?_
    intro _ st₁ h₁
    refine (ih st₁ (hs.trans h₁.grows) fun y hy => (hxs.2 y hy).mono
      (fun _ => H.reads.mono h₁.grows) fun _ => H.writes.mono h₁.grows).imp ?_
    exact fun _ st₂ h₂ => h₁.trans (scope_weaves H).joins h₂

end Trees

/-! ### Copies -/

theorem nodup_slotIn {list : List (Option Reg)} (h : list.Nodup) (r : Option Reg) :
    (slotIn list r).1.Nodup := by
  unfold slotIn
  split
  · exact h
  · rename_i hnone
    exact nodup_append.mpr ⟨h, pairwise_singleton _ _, fun a ha b hb hab =>
      idxOf?_eq_none_iff.mp hnone (mem_singleton.mp hb ▸ hab ▸ ha)⟩

theorem nodup_withRegs {list : List (Option Reg)} (h : list.Nodup) (rs : List (Option Reg)) :
    (withRegs list rs).Nodup := by
  unfold withRegs
  induction rs generalizing list with
  | nil => exact h
  | cons r rs ih => exact ih (nodup_slotIn h r)

namespace Draft

variable {d d' : Draft}

theorem nodup_foldlM {parts : List Part} (h : parts.foldlM (Draft.part x leaves dst) d = .ok d')
    (hreads : d.reads.Nodup) (hwrites : d.writes.Nodup) : d'.reads.Nodup ∧ d'.writes.Nodup := by
  revert hreads hwrites
  refine of_foldlM (R := fun _ d d' =>
    d.reads.Nodup → d.writes.Nodup → d'.reads.Nodup ∧ d'.writes.Nodup) (fun _ => .intro) ?_ h
  intro p parts d d₁ d' hp ih hreads hwrites
  cases hp with
  | say | place => exact ih hreads hwrites
  | @refer _ _ access | @lose access =>
    cases access with
    | read => exact ih (nodup_slotIn hreads _) hwrites
    | write => exact ih hreads (nodup_slotIn hwrites _)
    | update => exact ih (nodup_slotIn hreads _) (nodup_slotIn hwrites _)

end Draft

/-- An instruction lists a register once, and is a move if it copies one register to another and its
recipe says so. -/
theorem of_instance?_eq (h : instance? x leaves dst used r = .ok i) :
    i.reads.Nodup ∧ i.writes.Nodup ∧ i.isMove = (r.isMove && isCopy i.reads i.writes) := by
  obtain ⟨d, dests, hd, -, rfl⟩ := of_instance? h
  obtain ⟨hreads, hwrites⟩ := Draft.nodup_foldlM hd .nil .nil
  refine ⟨?_, nodup_withRegs hwrites _, rfl⟩
  unfold Draft.finish
  dsimp only
  split
  · exact nodup_withRegs (nodup_withRegs hreads _) _
  · exact nodup_withRegs hreads _

theorem eq_singleton_of_nodup {α : Type} {list : List α} {a : α} (hn : list.Nodup)
    (h : ∀ b, b ∈ list ↔ b = a) : list = [a] :=
  perm_singleton.mp ((perm_ext_iff_of_nodup hn (nodup_singleton a)).mpr fun b => by
    rw [h, mem_singleton])

/-- The instruction for a copy. -/
structure IsCopy (d q : Option Reg) (i : Instr) : Prop where
  reads : i.reads = [q]
  writes : i.writes = [d]
  isMove : i.isMove = true
  label : i.label = none
  dests : i.dests = []

/-- A template for copies gives one move. -/
theorem isCopy_of_instances {d q : Option Reg} {e : Expr} {c : Code} (ht : tpl.Tidy reg? names)
    (hconf : tpl.Confined) (hcopy : tpl.pattern.isCopy = true) (hne : q ≠ d)
    (h : List.Forall₂ (fun r i =>
        instance? (.stmt (.move (.temp d) e)) [.temp d, .temp q] none [] r = .ok i)
      (tpl.recipes.filter (Recipe.isKept none)) c) : ∃ i, c = [i] ∧ IsCopy d q i := by
  obtain ⟨hcopies, r', hr', hwrite⟩ := ht.copy hcopy
  obtain ⟨r, hone, hmove, hread⟩ := hconf.copy hcopy
  have hmem : r ∈ tpl.recipes := by simp [hone]
  rw [hone, mem_singleton] at hr'
  rw [hr'] at hwrite
  have hc := hcopies r hmem
  simp only [Recipe.copies, Bool.and_eq_true, Bool.not_eq_true', List.isEmpty_iff, all_eq_true,
    decide_eq_true_eq, ne_eq] at hc
  obtain ⟨⟨⟨hfixr, hfixw⟩, hvalue⟩, hparts⟩ := hc
  have hkept : r.isKept none = true := by simp [Recipe.isKept, hvalue]
  rw [hone, filter_cons_of_pos hkept, filter_nil] at h
  obtain ⟨i, rest, hi, hrest, rfl⟩ := forall₂_cons_left_iff.mp h
  cases hrest
  have hinst := isInstance_of_eq hi
  obtain ⟨hnr, hnw, hmv⟩ := of_instance?_eq hi
  have hout {access : Access} (hp : .out access ∈ r.parts) : False := by
    obtain ⟨w, hw⟩ := exists_dst_of_out (ht.suits r hmem) hkept hp
    cases hw
  have hreads : i.reads = [q] := by
    refine eq_singleton_of_nodup hnr fun u => ⟨fun hu => ?_, ?_⟩
    · obtain ⟨p, hp, access, href, hacc⟩ | hu | ⟨-, hu⟩ := (hinst.reads u).mp hu
      · cases p with
        | leaf n a =>
          rcases n with _ | _ | n
          · cases href
            cases access with
            | read => exact absurd rfl (hparts _ hp).1
            | update => exact absurd rfl (hparts _ hp).2
            | write => cases hacc
          · cases href
            rfl
          · cases href
        | out a => exact (hout hp).elim
        | fixed w a =>
          cases href
          have hmem : w ∈ r.fixedReads :=
            mem_append_left _ (mem_filterMap.mpr ⟨_, hp, if_pos hacc⟩)
          rw [hfixr] at hmem
          cases hmem
        | text | onTrue | onFalse | label => cases href
      · rw [(append_eq_nil_iff.mp hfixr).2] at hu
        cases hu
      · cases hu
    · rintro rfl
      exact (hinst.reads _).mpr (.inl ⟨_, hread, .read, rfl, rfl⟩)
  have hwrites : i.writes = [d] := by
    refine eq_singleton_of_nodup hnw fun u => ⟨fun hu => ?_, ?_⟩
    · obtain ⟨p, hp, access, href, hacc⟩ | hu := (hinst.writes u).mp hu
      · cases p with
        | leaf n a =>
          rcases n with _ | _ | n
          · cases href
            rfl
          · cases href
            exact absurd (hconf.leaf r hmem 1 _ hp hacc).1 Nat.one_ne_zero
          · cases href
        | out a => exact (hout hp).elim
        | fixed w a =>
          cases href
          have hmem : w ∈ r.fixedWrites :=
            mem_append_left _ (mem_filterMap.mpr ⟨_, hp, if_pos hacc⟩)
          rw [hfixw] at hmem
          cases hmem
        | text | onTrue | onFalse | label => cases href
      · rw [(append_eq_nil_iff.mp hfixw).2] at hu
        cases hu
    · rintro rfl
      exact (hinst.writes _).mpr (.inl ⟨_, hwrite, .write, rfl, rfl⟩)
  refine ⟨i, rfl, hreads, hwrites, ?_, ?_, eq_nil_iff_forall_not_mem.mpr fun l hl => ?_⟩
  · rw [hmv, hmove, hreads, hwrites]
    simpa [isCopy] using hne
  · rw [hinst.label]
    exact ite_self _
  · exact not_mem_nil (hinst.dests_subset l hl)

/-- A register is copied by one move. -/
theorem selectStmt_isCopy (ht : t.Apt base names)
    (hconf : ∀ tpl ∈ t.catalog.templates, tpl.Confined) {d q : Option Reg} (hne : q ≠ d) (st : State) :
    Ends (selectStmt t.kit (.move (.temp d) (.temp q))) st
      (fun _ st' => st'.supply = st.supply ∧ ∃ i, st'.code = st.code ++ [i] ∧ IsCopy d q i)
      fun _ => True := by
  rw [selectStmt, selectNode]
  refine (find_keeps _ _ st).bind ?_
  rintro ⟨⟨tpl, b⟩, hfind⟩ st₁ ⟨hsupply₁, hcode₁⟩
  obtain ⟨hmem, -, hcopy, -, hleaves⟩ := bind_of_find?_copy hfind
  dsimp only
  rw [hleaves, selectLeaves_temps, pure_bind]
  refine (fill_instances _ _ _ _ _ _ st₁).imp ?_
  rintro - st₂ ⟨hsupply₂, c, hcode₂, hc⟩
  obtain ⟨i, rfl, hi⟩ := isCopy_of_instances (ht.tidy tpl hmem) (hconf tpl hmem) hcopy hne hc
  exact ⟨hsupply₂.trans hsupply₁, i, by rw [hcode₂, hcode₁], hi⟩

end Selection

end Codegen
