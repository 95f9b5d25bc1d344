import Codegen.Canonical.Hoist
import Codegen.Proofs.Canonical.Simple

/-!
# Hoisting preserves meaning

Operands that are hoisted one after the other (`runOps`) do the same when all their statements are
put in front (`hoistAll_pulls`): an earlier operand is saved in a fresh register before a statement
that may change its value, and no statement of a later operand writes that register.
-/

namespace Codegen.Semantics

open List

variable {Mem : Type*} {I : Interp Mem} {s c c' : Supply}

/-- A hoisted operand is made of simple statements and a pure value, over registers that were there
before. -/
structure Neat (s : Supply) (h : Hoisted) : Prop where
  pre : ∀ x ∈ h.pre, isSimple x = true
  value : isPure h.value = true
  known_pre : ∀ r ∈ regsInAll h.pre, s.Knows r
  known_value : ∀ r ∈ regsOf h.value, s.Knows r

/-- Run operands one after the other, taking each value right behind its statements. -/
def runOps (I : Interp Mem) : List Hoisted → Store Mem → List Int64 × Store Mem
  | [], σ => ([], σ)
  | h :: rest, σ =>
    let τ := (execAll I h.pre σ).2
    let xs := runOps I rest τ
    ((eval I h.value τ).1 :: xs.1, xs.2)

/-- An operand that was evaluated: pure, and if it was saved, then in a register made since `s`. -/
structure Held (s c : Supply) (o : Operand) : Prop where
  value : isPure o.value = true
  known : ∀ r ∈ regsOf o.value, c.Knows r
  saved : o.saved = true → ∃ t, o.value = .temp (some t) ∧ s.Made c t

theorem Held.mono {o : Operand} (h : Held s c o) (hg : c.Grows c') : Held s c' o where
  value := h.value
  known r hr := (h.known r hr).mono hg
  saved ho := by
    obtain ⟨t, h1, h2⟩ := h.saved ho
    exact ⟨t, h1, h2.mono (.refl s) hg⟩

/-- The values of operands. -/
def valuesOf (I : Interp Mem) (os : List Operand) (σ : Store Mem) : List Int64 :=
  os.map fun o => (eval I o.value σ).1

/-- Operands keep their values where the registers that they may refer to are the same. -/
theorem Same.valuesOf {σ σ' : Store Mem} (h : Same c.Knows σ σ') {os : List Operand}
    (hos : ∀ o ∈ os, Held s c o) : valuesOf I os σ' = valuesOf I os σ :=
  map_congr_left fun o ho => h.eval_of_isPure (hos o ho).value (hos o ho).known

/-! ### Saving operands -/

/-- What saving operands comes to. -/
structure Saves (I : Interp Mem) (eff : Effects) (s c : Supply) (os : List Operand)
    (moves : List Stmt) (os' : List Operand) (c' : Supply) : Prop where
  grows : c.Grows c'
  simple : ∀ x ∈ moves, isSimple x = true
  known : ∀ r ∈ regsInAll moves, c'.Knows r
  held : ∀ o ∈ os', Held s c' o
  /-- What was not saved commutes with the effects. -/
  safe : ∀ o ∈ os', o.saved = true ∨ eff.commutes o.value = true
  same : ∀ σ : Store Mem, Same c.Knows σ (execAll I moves σ).2
  values : ∀ σ : Store Mem, valuesOf I os' (execAll I moves σ).2 = valuesOf I os σ

variable {eff : Effects} {o : Operand} {os os' : List Operand} {moves : List Stmt}

/-- An operand that commutes with the effects or was saved before stays. -/
theorem Saves.keep (h : Saves I eff s c os moves os' c') (ho : Held s c o)
    (hkeep : o.saved = true ∨ eff.commutes o.value = true) :
    Saves I eff s c (o :: os) moves (o :: os') c' where
  grows := h.grows
  simple := h.simple
  known := h.known
  held := forall_mem_cons.mpr ⟨ho.mono h.grows, h.held⟩
  safe := forall_mem_cons.mpr ⟨hkeep, h.safe⟩
  same := h.same
  values σ := by
    rw [valuesOf, map_cons, (h.same σ).eval_of_isPure ho.value ho.known, ← valuesOf, h.values σ]
    rfl

/-- Any other operand is saved in a fresh register. -/
theorem Saves.save (h : Saves I eff s c.freshReg.2 os moves os' c') (hs : s.Grows c)
    (ho : Held s c o) (hos : ∀ o ∈ os, Held s c o) :
    Saves I eff s c (o :: os) (.move (.temp (some c.freshReg.1)) o.value :: moves)
      ({ value := .temp (some c.freshReg.1), saved := true } :: os') c' := by
  have hmade := c.made_freshReg
  have hknows := hmade.knows.mono h.grows
  have hsimple : isSimple (.move (.temp (some c.freshReg.1)) o.value) = true :=
    isWhole_of_isPure ho.value
  -- the move writes a register that nothing else refers to
  have hexec : ∀ σ : Store Mem, (exec I (.move (.temp (some c.freshReg.1)) o.value) σ).2 =
      σ.setReg (some c.freshReg.1) (eval I o.value σ).1 := by
    intro σ
    show (eval I o.value σ).2.setReg _ _ = _
    rw [eval_snd_of_isPure ho.value]
  have hmove : ∀ σ : Store Mem, Same c.Knows σ (σ.setReg (some c.freshReg.1) (eval I o.value σ).1) :=
    fun σ => (Same.refl _ σ).setReg_right (fun hk => hk.ne hmade rfl) _
  refine ⟨c.grows_freshReg.trans h.grows, forall_mem_cons.mpr ⟨hsimple, h.simple⟩,
    fun r hr => ?_, forall_mem_cons.mpr ⟨⟨rfl, fun r hr => ?_, fun _ => ?_⟩, h.held⟩,
    forall_mem_cons.mpr ⟨Or.inl rfl, h.safe⟩, fun σ => ?_, fun σ => ?_⟩
  · rcases mem_append.mp hr with hr | hr
    · rcases mem_cons.mp hr with rfl | hr
      · exact hknows
      · exact ((ho.known r hr).mono c.grows_freshReg).mono h.grows
    · exact h.known r hr
  · rw [mem_singleton.mp hr]
    exact hknows
  · exact ⟨_, rfl, hmade.mono hs h.grows⟩
  · rw [execAll_snd_cons hsimple, hexec]
    exact (hmove σ).trans ((h.same _).mono fun r hr => hr.mono c.grows_freshReg)
  · rw [execAll_snd_cons hsimple, hexec, valuesOf, map_cons, ← valuesOf, h.values,
      (hmove σ).valuesOf hos]
    show Store.regs _ (some c.freshReg.1) :: _ = _
    rw [(h.same _).regs _ hmade.knows]
    show Function.update _ _ _ _ :: _ = _
    rw [Function.update_self]
    rfl

theorem saveClashing_saves (I : Interp Mem) (eff : Effects) (hs : s.Grows c)
    (hos : ∀ o ∈ os, Held s c o) :
    Saves I eff s c os (saveClashing eff os c).1 (saveClashing eff os c).2.1
      (saveClashing eff os c).2.2 := by
  induction os generalizing c with
  | nil => exact ⟨.refl c, by simp [saveClashing], by simp [saveClashing, regsInAll],
      by simp [saveClashing], by simp [saveClashing], Same.refl _, fun _ => rfl⟩
  | cons o os ih =>
    obtain ⟨ho, hos⟩ := forall_mem_cons.mp hos
    rw [saveClashing]
    split
    · rename_i hkeep
      exact (ih hs hos).keep ho (Bool.or_eq_true _ _ ▸ hkeep)
    · exact (ih (hs.trans c.grows_freshReg) fun o ho => (hos o ho).mono c.grows_freshReg).save hs ho
        hos

theorem length_saveClashing (eff : Effects) (os : List Operand) (c : Supply) :
    (saveClashing eff os c).2.1.length = os.length := by
  induction os generalizing c with
  | nil => rfl
  | cons o os ih =>
    rw [saveClashing]
    split
    · exact congrArg (· + 1) (ih c)
    · exact congrArg (· + 1) (ih _)

/-! ### Putting statements in front -/

/-- What is put in front does what the operands do one after the other, and leaves the operands before
them and their own with their values. -/
structure Pulls (I : Interp Mem) (s c : Supply) (os : List Operand) (ops : List Hoisted)
    (pre : List Stmt) (os' : List Operand) (c' : Supply) : Prop where
  grows : c.Grows c'
  simple : ∀ x ∈ pre, isSimple x = true
  known : ∀ r ∈ regsInAll pre, c'.Knows r
  held : ∀ o ∈ os', Held s c' o
  run : ∀ σ σ' : Store Mem, Same s.Knows σ σ' →
    Same s.Knows (runOps I ops σ).2 (execAll I pre σ').2 ∧
      valuesOf I os' (execAll I pre σ').2 = valuesOf I os σ' ++ (runOps I ops σ).1

/-- Operands that are saved or commute with the effects of statements keep their values. -/
theorem valuesOf_execAll {xs : List Stmt} (hx : ∀ x ∈ xs, isSimple x = true)
    (hknown : ∀ r ∈ regsInAll xs, s.Knows r) (hos : ∀ o ∈ os, Held s c o)
    (hsafe : ∀ o ∈ os, o.saved = true ∨ (Stmt.effectsOf xs).commutes o.value = true)
    (σ : Store Mem) : valuesOf I os (execAll I xs σ).2 = valuesOf I os σ := by
  refine map_congr_left fun o ho => ?_
  rcases hsafe o ho with hsaved | hcomm
  · obtain ⟨t, ht, hmade⟩ := (hos o ho).saved hsaved
    rw [ht]
    exact execAll_regs hx (fun hmem => (hknown _ hmem).ne hmade rfl) σ
  · have hchange := execAll_changes (I := I) hx σ
    exact eval_of_commutes hcomm hchange.regs hchange.mem

theorem Neat.held {h : Hoisted} (hh : Neat s h) (hs : s.Grows c) : Held s c ⟨h.value, false⟩ where
  value := hh.value
  known r hr := (hh.known_value r hr).mono hs
  saved ho := by cases ho

theorem valuesOf_append (os os' : List Operand) (σ : Store Mem) :
    valuesOf I (os ++ os') σ = valuesOf I os σ ++ valuesOf I os' σ := map_append

theorem hoistAfter_pulls (I : Interp Mem) (hs : s.Grows c) {ops : List Hoisted}
    (hops : ∀ h ∈ ops, Neat s h) (hos : ∀ o ∈ os, Held s c o) (pre : List Stmt) :
    ∃ more, (hoistAfter pre os ops c).1 = pre ++ more ∧
      Pulls I s c os ops more (hoistAfter pre os ops c).2.1 (hoistAfter pre os ops c).2.2 := by
  induction ops generalizing os c pre with
  | nil =>
    refine ⟨[], (append_nil pre).symm, .refl c, by simp, by simp [regsInAll], hos, ?_⟩
    exact fun σ σ' h => ⟨h, (append_nil _).symm⟩
  | cons h ops ih =>
    obtain ⟨hh, hops⟩ := forall_mem_cons.mp hops
    rw [hoistAfter]
    split
    · rename_i hnil
      rw [List.isEmpty_iff] at hnil
      obtain ⟨more, heq, hp⟩ := ih hs hops
        (forall_mem_append.mpr ⟨hos, forall_mem_singleton.mpr (hh.held hs)⟩) pre
      refine ⟨more, heq, hp.grows, hp.simple, hp.known, hp.held, fun σ σ' hσ => ?_⟩
      obtain ⟨h1, h2⟩ := hp.run σ σ' hσ
      rw [runOps, hnil]
      refine ⟨h1, ?_⟩
      rw [h2, valuesOf_append, append_assoc]
      show _ ++ ((eval I h.value σ').1 :: _) = _ ++ ((eval I h.value σ).1 :: _)
      rw [hσ.eval_of_isPure hh.value hh.known_value]
      rfl
    · have hsave := saveClashing_saves I (Stmt.effectsOf h.pre) hs hos
      generalize saveClashing (Stmt.effectsOf h.pre) os c = saved at hsave ⊢
      obtain ⟨moves, os₁, c₁⟩ := saved
      dsimp only at hsave ⊢
      have hs₁ := hs.trans hsave.grows
      obtain ⟨more, heq, hp⟩ := ih hs₁ hops
        (forall_mem_append.mpr ⟨hsave.held, forall_mem_singleton.mpr (hh.held hs₁)⟩)
        (pre ++ moves ++ h.pre)
      refine ⟨moves ++ (h.pre ++ more), by rw [heq]; simp only [append_assoc],
        hsave.grows.trans hp.grows, ?_, ?_, hp.held, fun σ σ' hσ => ?_⟩
      · exact forall_mem_append.mpr
          ⟨hsave.simple, forall_mem_append.mpr ⟨hh.pre, hp.simple⟩⟩
      · intro r hr
        rw [regsInAll_append, regsInAll_append, mem_append, mem_append] at hr
        rcases hr with hr | hr | hr
        · exact (hsave.known r hr).mono hp.grows
        · exact (hh.known_pre r hr).mono (hs₁.trans hp.grows)
        · exact hp.known r hr
      · -- the operands before keep their values while the statements of this one run
        have hmoves : Same s.Knows σ (execAll I moves σ').2 :=
          hσ.trans ((hsave.same σ').mono fun r hr => hr.mono hs)
        have hpre := hmoves.execAll (I := I) hh.pre hh.known_pre
        obtain ⟨h1, h2⟩ := hp.run _ _ hpre
        rw [execAll_append_of_isSimple hsave.simple, execAll_append_of_isSimple hh.pre, runOps]
        refine ⟨h1, ?_⟩
        rw [h2, valuesOf_append, valuesOf_execAll hh.pre hh.known_pre hsave.held hsave.safe,
          hsave.values, append_assoc]
        show _ ++ ((eval I h.value _).1 :: _) = _ ++ ((eval I h.value _).1 :: _)
        rw [hpre.eval_of_isPure hh.value hh.known_value]
        rfl

theorem length_hoistAfter (pre : List Stmt) (done : List Operand) (ops : List Hoisted) (c : Supply) :
    (hoistAfter pre done ops c).2.1.length = done.length + ops.length := by
  induction ops generalizing pre done c with
  | nil => rfl
  | cons h ops ih =>
    rw [hoistAfter]
    split
    · rw [ih, length_append, length_singleton, length_cons, Nat.add_assoc,
        Nat.add_comm 1]
    · dsimp only
      rw [ih, length_append, length_saveClashing, length_singleton, length_cons,
        Nat.add_assoc, Nat.add_comm 1]

theorem length_hoistAll (ops : List Hoisted) (c : Supply) :
    (hoistAll ops c).2.1.length = ops.length := by
  rw [hoistAll]
  dsimp only
  rw [length_map, length_hoistAfter]
  exact Nat.zero_add _

/-- Statements of operands may be put in front. -/
theorem hoistAll_pulls (I : Interp Mem) {ops : List Hoisted} (hops : ∀ h ∈ ops, Neat s h) :
    s.Grows (hoistAll ops s).2.2 ∧ (∀ x ∈ (hoistAll ops s).1, isSimple x = true) ∧
      (∀ r ∈ regsInAll (hoistAll ops s).1, (hoistAll ops s).2.2.Knows r) ∧
      (∀ e ∈ (hoistAll ops s).2.1, isPure e = true ∧
        ∀ r ∈ regsOf e, (hoistAll ops s).2.2.Knows r) ∧
      ∀ σ : Store Mem, Same s.Knows (runOps I ops σ).2 (execAll I (hoistAll ops s).1 σ).2 ∧
        ((hoistAll ops s).2.1.map fun e => (eval I e (execAll I (hoistAll ops s).1 σ).2).1) =
          (runOps I ops σ).1 := by
  have hnone : ∀ o ∈ ([] : List Operand), Held s s o := forall_mem_nil _
  obtain ⟨more, heq, hp⟩ := hoistAfter_pulls I (.refl s) hops hnone []
  have hpre : (hoistAll ops s).1 = more := heq
  rw [hpre]
  refine ⟨hp.grows, hp.simple, hp.known, fun e he => ?_, fun σ => ?_⟩
  · obtain ⟨o, ho, rfl⟩ := mem_map.mp he
    exact ⟨(hp.held o ho).value, (hp.held o ho).known⟩
  · obtain ⟨h1, h2⟩ := hp.run σ σ (.refl _ σ)
    refine ⟨h1, ?_⟩
    show ((List.map _ _).map _) = _
    rw [map_map]
    exact h2

end Codegen.Semantics
