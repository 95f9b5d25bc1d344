import Codegen.Program.Function
import Codegen.Proofs.Selection.Progress

/-!
# The code that is selected for a function

The code of a function is its begin, the code of its arranged body, and its end. The begin leaves room
(`Target.Framed.begins`). What follows is made of stretches (`Function.select_selects`): the end
restores the registers that a function keeps before it reads them, and right in front of it the result
is copied.
-/

namespace Codegen

open Allocation Pass Code Selection List

namespace Target

variable {t : Target} {base s s₀ s₁ : Supply} {names : List String} {f : Frame} {c : Code}
  {saved : List (Option Reg)} {result q : Option Reg}

/-! ### The begin -/

/-- The registers that hold the kept ones are fresh. -/
theorem saveRegs_saved (t : Target) (cs : List (Option Reg)) (s : Supply) :
    (t.saveRegs cs s).2.1.length = cs.length ∧
      ∀ r ∈ (t.saveRegs cs s).2.1, ∃ q, r = some q ∧ s.Made (t.saveRegs cs s).2.2 q := by
  obtain ⟨ws, -, hsaved, hlen, hout⟩ := t.saveRegs_eq cs s
  rw [hsaved, length_map]
  refine ⟨hlen, fun r hr => ?_⟩
  obtain ⟨q, hq, rfl⟩ := mem_map.mp hr
  exact ⟨q, rfl, hout.made q hq⟩

/-- The begin of a function, with the registers that hold the kept ones. -/
structure Begins (t : Target) (f : Frame) (s : Supply) (c : Code) (saved : List (Option Reg)) :
    Prop where
  room : Roomy t.catalog (some t.fp) t.catalog.regs.length c
  regs : ∀ r ∈ c.regs, t.Nameable s r ∨ r ∈ t.catalog.regs
  labels : c.labels = [f.label]
  dests : ∀ i ∈ c, i.dests = []
  silent : ∀ i ∈ c, i.label ≠ none → i.reads = []
  length : saved.length = t.catalog.calleeSave.length
  saved : ∀ r ∈ saved, t.Nameable s r

/-- The function of a new frame begins with code that leaves room. -/
theorem Framed.begins {n : Nat} {nested : Bool} {rs parents : List Reg}
    (h : t.Framed f n nested s₀ s₁ rs parents) (ht : t.Apt base names) (hbase : base.Grows s₀)
    (hs : s₁.Grows s) : s.Grows (t.prologue f s).2.2 ∧
      t.Begins f (t.prologue f s).2.2 (t.prologue f s).1 (t.prologue f s).2.1 := by
  obtain ⟨ws, hcode, hlen, hws⟩ := h.prologue_eq s
  obtain ⟨hsaved, hmade⟩ := t.saveRegs_saved t.catalog.calleeSave s
  have hout := (h.handsOut.append hs.handsOut).append hws
  rw [append_nil] at hout
  have hgrows : base.Grows s := (hbase.trans h.handsOut.grows).trans hs
  -- every instruction but the first copies one of few machine registers to a fresh one
  have hmodest : ∀ i ∈ (t.prologue f s).1,
      t.Modest (t.catalog.params ++ [some t.link] ++ t.catalog.calleeSave) 1
        (t.prologue f s).2.2 i := by
    rw [hcode, forall_mem_cons]
    refine ⟨⟨[], Nat.zero_le _, nofun⟩, fun i hi => ?_⟩
    obtain ⟨p, hp, rfl⟩ := mem_map.mp hi
    have hfst : p.1 ∈ (rs ++ parents ++ ws).map some := by
      rw [← receipts_fst (h.length ▸ Nat.min_le_right n _) hlen]
      exact mem_map_of_mem hp
    obtain ⟨w, hw, heq⟩ := mem_map.mp hfst
    have hname : t.Nameable (t.prologue f s).2.2 p.1 :=
      ⟨w, heq.symm, .inl (ht.variable_of_made ((hout.made w hw).mono hbase (.refl _)))⟩
    refine ⟨[p.1], Nat.le_refl _, ?_⟩
    show ∀ r ∈ [p.2] ++ [p.1], _
    rw [forall_mem_append, forall_mem_singleton, forall_mem_singleton]
    exact ⟨.inr (snd_mem_of_mem_receipts hp), .inl ⟨hname, mem_singleton_self _⟩⟩
  have hus : ∀ r ∈ t.catalog.params ++ [some t.link] ++ t.catalog.calleeSave,
      r ∈ t.catalog.regs := by
    rw [forall_mem_append]
    exact ⟨fun r hr => ht.mem_regs_of_named (ht.passing r hr),
      fun r hr => ht.keeping r (mem_append_left _ hr)⟩
  refine ⟨hws.grows, ht.roomy_of_modest hus ?_ hmodest, nameable_or_mem_regs hus hmodest, ?_, ?_, ?_,
    hsaved, fun r hr => ?_⟩
  · have hroom := ht.room_calls
    rw [length_append, length_append, length_singleton]
    omega
  · rw [hcode]
    show f.label :: _ = _
    rw [cons_eq_cons]
    refine ⟨rfl, filterMap_eq_nil_iff.mpr fun i hi => ?_⟩
    obtain ⟨p, -, rfl⟩ := mem_map.mp hi
    rfl
  · rw [hcode, forall_mem_cons]
    refine ⟨rfl, fun i hi => ?_⟩
    obtain ⟨p, -, rfl⟩ := mem_map.mp hi
    rfl
  · rw [hcode, forall_mem_cons]
    refine ⟨fun _ => rfl, fun i hi hl => ?_⟩
    obtain ⟨p, -, rfl⟩ := mem_map.mp hi
    exact absurd rfl hl
  · obtain ⟨q, rfl, hq⟩ := hmade r hr
    exact ⟨q, rfl, .inl (ht.variable_of_made (hq.mono hgrows (.refl _)))⟩

/-! ### The end -/

/-- Code that copies a register to the one for results, if there is one. -/
structure Delivers (t : Target) (s : Supply) (result : Option Reg) (c : Code) : Prop where
  reads : ∀ i ∈ c, ∀ r ∈ i.reads, t.Nameable s r ∧ r = result
  writes : ∀ i ∈ c, ∀ r ∈ i.writes, t.Nameable s r ∧ r = result ∨ r = t.catalog.result
  straight : Straight c
  written : result.isSome = true → ∃ i ∈ c, t.catalog.result ∈ i.writes

/-- What the instructions at the end of a function are. -/
theorem mem_epilogue {i : Instr} {b : Bool} (hi : i ∈ t.epilogue saved b) :
    (∃ p ∈ t.catalog.calleeSave.zip saved, i = t.dialect.move p.1 p.2) ∨
      i = { text := t.dialect.ret
            reads := t.catalog.calleeSave ++ (if b then [t.catalog.result] else []) } := by
  obtain hi | hi := mem_append.mp hi
  · obtain ⟨p, hp, rfl⟩ := mem_map.mp hi
    exact .inl ⟨p, hp, rfl⟩
  · exact .inr (mem_singleton.mp hi)

/-- The end of a function needs only the register for results: it restores the kept ones before it
reads them. -/
theorem not_needs_epilogue (ht : t.Apt base names) (hlen : saved.length = t.catalog.calleeSave.length)
    (hsaved : ∀ r ∈ saved, t.Nameable s r) {b : Bool} {r : Option Reg} (hr : r ∈ t.catalog.regs)
    (h : Needs r (t.epilogue saved b)) : b = true ∧ r = t.catalog.result := by
  rw [epilogue, needs_append] at h
  obtain h | ⟨hwrites, h⟩ := h
  · obtain ⟨i, hi, hread⟩ := h.exists_reads
    obtain ⟨p, hp, rfl⟩ := mem_map.mp hi
    rw [mem_singleton.mp hread] at hr
    exact absurd hr (ht.not_mem_regs (hsaved _ (of_mem_zip hp).2))
  · obtain ⟨i, hi, hread⟩ := h.exists_reads
    rw [mem_singleton.mp hi] at hread
    obtain hkept | hresult := mem_append.mp hread
    · have hfst : (t.catalog.calleeSave.zip saved).map Prod.fst = t.catalog.calleeSave :=
        map_fst_zip (Nat.le_of_eq hlen.symm)
      rw [← hfst] at hkept
      obtain ⟨p, hp, rfl⟩ := mem_map.mp hkept
      exact absurd (mem_singleton_self _)
        (hwrites (t.dialect.move p.1 p.2) (mem_map_of_mem hp))
    · cases b with
      | false => cases hresult
      | true => exact ⟨rfl, mem_singleton.mp hresult⟩

/-- The end of a function is one stretch with what copies the result. -/
theorem Delivers.selected (h : t.Delivers s result c) (ht : t.Apt base names)
    (hlen : saved.length = t.catalog.calleeSave.length) (hsaved : ∀ r ∈ saved, t.Nameable s r) :
    t.Selected s [] [] (c ++ t.epilogue saved result.isSome) := by
  have hmodest : ∀ i ∈ c ++ t.epilogue saved result.isSome,
      t.Modest (t.catalog.calleeSave ++ [t.catalog.result]) 1 s i := by
    rw [forall_mem_append]
    refine ⟨fun i hi => ⟨[result], Nat.le_refl _, ?_⟩, fun i hi => ?_⟩
    · rw [forall_mem_append]
      refine ⟨fun r hr => .inl ?_, fun r hr => ?_⟩
      · obtain ⟨hname, rfl⟩ := h.reads i hi r hr
        exact ⟨hname, mem_singleton_self _⟩
      · obtain ⟨hname, rfl⟩ | rfl := h.writes i hi r hr
        · exact .inl ⟨hname, mem_singleton_self _⟩
        · exact .inr (mem_append_right _ (mem_singleton_self _))
    · obtain ⟨p, hp, rfl⟩ | rfl := mem_epilogue hi
      · obtain ⟨hkept, hmem⟩ := of_mem_zip hp
        refine ⟨[p.2], Nat.le_refl _, ?_⟩
        show ∀ r ∈ [p.2] ++ [p.1], _
        rw [forall_mem_append, forall_mem_singleton, forall_mem_singleton]
        exact ⟨.inl ⟨hsaved _ hmem, mem_singleton_self _⟩, .inr (mem_append_left _ hkept)⟩
      · refine ⟨[], Nat.zero_le _, fun r hr => .inr ?_⟩
        rw [append_nil] at hr
        refine (mem_append.mp hr).elim (mem_append_left _) fun hr => mem_append_right _ ?_
        split at hr
        · exact hr
        · cases hr
  have hstraight : Straight (c ++ t.epilogue saved result.isSome) := by
    unfold Straight
    rw [forall_mem_append]
    refine ⟨h.straight, fun i hi => ?_⟩
    obtain ⟨p, -, rfl⟩ | rfl := mem_epilogue hi
    · exact ⟨rfl, rfl⟩
    · exact ⟨rfl, rfl⟩
  have hneeds : ∀ r ∈ t.catalog.regs, ¬ Needs r (c ++ t.epilogue saved result.isSome) := by
    intro r hr hneeds
    obtain hneeds | ⟨hwrites, hneeds⟩ := needs_append.mp hneeds
    · obtain ⟨i, hi, hread⟩ := hneeds.exists_reads
      exact ht.not_mem_regs (h.reads i hi r hread).1 hr
    · obtain ⟨hsome, rfl⟩ := not_needs_epilogue ht hlen hsaved hr hneeds
      obtain ⟨i, hi, hwrite⟩ := h.written hsome
      exact hwrites i hi hwrite
  have hroom := ht.room_calls
  refine ⟨Stretch.stretches ⟨ht.roomy_of_modest ht.keeping ?_ hmodest, hneeds,
    fun i hi => (hstraight i (mem_of_mem_tail hi)).1⟩, nameable_or_mem_regs ht.keeping hmodest,
    filterMap_eq_nil_iff.mpr fun i hi => (hstraight i hi).1, fun i hi l hl => ?_,
    fun i hi hl => absurd (hstraight i hi).1 hl⟩
  · rw [length_append, length_singleton]
    omega
  · rw [(hstraight i hi).2] at hl
    cases hl

end Target

/-! ### The result -/

namespace Selection

variable {t : Target} {base : Supply} {names : List String} {st : State} {q : Option Reg}
  {tpl : Template}

/-- A template for copies that is filled in copies. -/
theorem delivers_of_isInstance {c : Code} {s : Supply} {x : Node}
    (ht : tpl.Tidy t.catalog.reg? names) (hcopy : tpl.pattern.isCopy = true)
    (hq : t.Nameable s q) (hplaced : x.placed? = none) (hdests : x.dests = [])
    (h : List.Forall₂ (IsInstance x [.temp t.catalog.result, .temp q] none [])
      (tpl.recipes.filter (Recipe.isKept none)) c) : t.Delivers s q c := by
  obtain ⟨hcopies, r₀, hr₀, hwrite⟩ := ht.copy hcopy
  simp only [Recipe.copies, Bool.and_eq_true, Bool.not_eq_true', List.isEmpty_iff, all_eq_true,
    decide_eq_true_eq, ne_eq] at hcopies
  rw [filter_eq_self.mpr fun r hr => by simp [Recipe.isKept, (hcopies r hr).1.2]] at h
  have hout {r : Recipe} (hr : r ∈ tpl.recipes) {access : Access} (hp : .out access ∈ r.parts) :
      False := by
    have hsuits := ht.suits r hr
    simp only [Recipe.suits, Bool.and_eq_true, all_eq_true] at hsuits
    have hmakes : r.makesValue = true := any_eq_true.mpr ⟨_, hp, hsuits.1.1.1.1 _ hp⟩
    rw [(hcopies r hr).1.2] at hmakes
    cases hmakes
  refine ⟨fun i hi u hu => ?_, fun i hi u hu => ?_, fun i hi => ?_, fun _ => ?_⟩
  · obtain ⟨r, hr, hinst⟩ := exists_mem_of_forall₂ h hi
    obtain ⟨⟨⟨hreads, -⟩, -⟩, hparts⟩ := hcopies r hr
    obtain ⟨p, hp, access, href, hacc⟩ | hu | ⟨-, hu⟩ := (hinst.reads u).mp hu
    · obtain ⟨h0, h1⟩ := hparts p hp
      cases p with
      | leaf n a =>
        -- the first leaf is only written
        rcases n with _ | _ | n
        · cases href
          cases access with
          | read => exact absurd rfl h0
          | update => exact absurd rfl h1
          | write => cases hacc
        · cases href
          exact ⟨hq, rfl⟩
        · cases href
      | out a => exact (hout hr hp).elim
      | fixed w a =>
        cases href
        have hmem : w ∈ r.fixedReads :=
          mem_append_left _ (mem_filterMap.mpr ⟨_, hp, if_pos hacc⟩)
        rw [hreads] at hmem
        cases hmem
      | text | onTrue | onFalse | label => cases href
    · rw [(append_eq_nil_iff.mp hreads).2] at hu
      cases hu
    · cases hu
  · obtain ⟨r, hr, hinst⟩ := exists_mem_of_forall₂ h hi
    obtain ⟨⟨⟨-, hwrites⟩, -⟩, -⟩ := hcopies r hr
    obtain hl | ⟨⟨access, hp⟩, -⟩ | ⟨w, hw, -⟩ := hinst.writes_cases hu
    · simp only [mem_cons, Leaf.temp.injEq, not_mem_nil, or_false] at hl
      obtain rfl | rfl := hl
      · exact .inr rfl
      · exact .inl ⟨hq, rfl⟩
    · exact (hout hr hp).elim
    · rw [hwrites] at hw
      cases hw
  · obtain ⟨r, hr, hinst⟩ := exists_mem_of_forall₂ h hi
    refine ⟨?_, eq_nil_iff_forall_not_mem.mpr fun l hl => ?_⟩
    · rw [hinst.label, hplaced, ite_self]
    · have hmem := hinst.dests_subset l hl
      rw [hdests] at hmem
      cases hmem
  · obtain ⟨i, hi, hinst⟩ := exists_mem_of_forall₂ h.flip hr₀
    exact ⟨i, hi, (hinst.writes _).mpr (.inl ⟨_, hwrite, .write, rfl, rfl⟩)⟩

/-- The result is copied to where it is returned. -/
theorem selectStmt_delivers (ht : t.Apt base names) (hq : t.Nameable st.supply q) :
    Ends (selectStmt t.kit (.move (.temp t.catalog.result) (.temp q))) st
      (fun _ st' => st'.supply = st.supply ∧
        ∃ c, st'.code = st.code ++ c ∧ t.Delivers st.supply q c) fun _ => False := by
  obtain ⟨d, hd, -⟩ := ht.machine _ (ht.keeping t.catalog.result (by simp))
  have hplace : ∀ a b, Stmt.move (.temp t.catalog.result) (.temp q) = .move a b → a.isPlace = true := by
    rintro _ _ ⟨⟩
    rfl
  rw [selectStmt, selectNode]
  refine (find_ends (k := t.kit) rfl (ht.covers.find?_stmt (by simp [Node.head]) rfl hplace) st).bind ?_
  rintro ⟨⟨tpl, b⟩, hfind⟩ st₁ ⟨hsupply, hcode⟩
  obtain ⟨hmem, hhead, hcopy, hkinds, hleaves⟩ := bind_of_find?_copy hfind
  dsimp only
  rw [hleaves, selectLeaves_temps, pure_bind]
  have hsettled : List.Forall₂ (Leaf.Settled fun r => r.isSome = true) tpl.pattern.leafKinds
      [.temp t.catalog.result, .temp q] := by
    obtain ⟨w, rfl, -⟩ := hq
    rw [hkinds, hd]
    exact .cons rfl (.cons rfl .nil)
  obtain ⟨c, hinst, hfill⟩ := fill_isInstance (ht.tidy tpl hmem) hhead hsettled none []
  refine ends_of_eq (hfill st₁) ⟨hsupply, c, by rw [hcode], ?_⟩
  exact delivers_of_isInstance (ht.tidy tpl hmem) hcopy hq rfl rfl hinst

end Selection

/-! ### The whole function -/

namespace Function

variable {t : Target} {base s : Supply} {names : List String} {f : Frame} {begin : Code}
  {saved : List (Option Reg)} {list : List Stmt} {result : Option Reg} {L : Option Label → Prop}

/-- Code is selected for an arranged body, between the begin and the end of a function. -/
theorem select_selects (ht : t.Apt base names) (hs : base.Grows s) (hbegin : t.Begins f s begin saved)
    (hlist : ∀ x ∈ list, x.Selectable (t.Nameable s) L)
    (hresult : result.isSome = true → t.Nameable s result) (log : Array Event) :
    Ends (select t begin saved (.seq list) result) { supply := s, log }
      (fun code st => s.Grows st.supply ∧ ∃ c, code = begin ++ c ∧
        t.Selected st.supply (list.filterMap fun x => (Node.stmt x).placed?)
          (list.flatMap Stmt.dests) c) fun _ => False := by
  rw [select]
  refine (emit_ends begin).bind ?_
  rintro - st₁ ⟨hsupply₁, hcode₁⟩
  have hsupply₁ : st₁.supply = s := hsupply₁
  have hcode₁ : st₁.code = begin := hcode₁
  have hbody := selectStmts_selects (L := L) ht list st₁ (hsupply₁ ▸ hs) (hsupply₁ ▸ hlist)
  rw [selectStmt]
  refine (hbody.within_of_returns _).bind ?_
  rintro - st₂ ⟨hgrows, c, hcode₂, hsel⟩
  rw [hsupply₁] at hgrows
  -- what is left: copy the result, and end
  have hend (c' : Code) (st₃ : Selection.State) (hsupply₃ : st₃.supply = st₂.supply)
      (hcode₃ : st₃.code = st₂.code ++ c') (hdel : t.Delivers st₂.supply result c') :
      Ends (do Selection.emit (t.epilogue saved result.isSome); Selection.take) st₃
        (fun code st => s.Grows st.supply ∧ ∃ c, code = begin ++ c ∧
          t.Selected st.supply (list.filterMap fun x => (Node.stmt x).placed?)
            (list.flatMap Stmt.dests) c) fun _ => False := by
    refine (emit_ends _).bind ?_
    rintro - st₄ ⟨hsupply₄, hcode₄⟩
    refine ends_step.mpr ?_
    have hsupply : st₄.supply = st₂.supply := hsupply₄.trans hsupply₃
    refine ⟨?_, c ++ (c' ++ t.epilogue saved result.isSome), ?_, ?_⟩
    · exact hsupply ▸ hgrows
    · show st₄.code = _
      rw [hcode₄, hcode₃, hcode₂, hcode₁, append_assoc, append_assoc]
    · have h := hsel.append (hdel.selected ht hbegin.length fun r hr => (hbegin.saved r hr).mono hgrows)
      rw [append_nil, append_nil] at h
      exact hsupply ▸ h
  cases result with
  | none => exact hend [] st₂ rfl (append_nil _).symm ⟨forall_mem_nil _,
    forall_mem_nil _, forall_mem_nil _, by simp⟩
  | some r =>
    dsimp only
    rw [Option.isSome_some, if_pos rfl]
    refine (Ends.within_of_returns (selectStmt_delivers ht ((hresult rfl).mono hgrows)) _).bind ?_
    rintro - st₃ ⟨hsupply₃, c', hcode₃, hdel⟩
    exact hend c' st₃ hsupply₃ hcode₃ hdel

end Function

end Codegen
