import Codegen.Canonical.Tree
import Codegen.Proofs.Canonical.Fold
import Codegen.Proofs.Canonical.Hoist
import Codegen.Proofs.Canonical.Parts

/-!
# Canonical forms of straight trees

A tree without jumps and labels inside becomes simple statements and, if it is an expression, a value
behind them (`hoistExpr_hoists`, `hoistStmt_acts`). Both sides are compared on the registers that
were there before (`s.Knows` for the supply `s` at the start): what is hoisted may write others, made
since.
-/

namespace Codegen.Semantics

open Canonical Pass List

variable {Mem : Type*} {I : Interp Mem} {s c c₁ c' : Supply} {st : State} {h : Hoisted}

/-! ### What canonical forms come to -/

/-- A hoisted value has the result of a computation. -/
structure Hoists (I : Interp Mem) (s : Supply) (f : Store Mem → Int64 × Store Mem) (whole : Bool)
    (c c' : Supply) (h : Hoisted) : Prop where
  grows : c.Grows c'
  pre : ∀ x ∈ h.pre, isSimple x = true
  whole_value : isWhole h.value = true
  /-- A call stays only where that is allowed. -/
  pure_value : whole = false → isPure h.value = true
  known_pre : ∀ r ∈ regsInAll h.pre, c'.Knows r
  known_value : ∀ r ∈ regsOf h.value, c'.Knows r
  run : ∀ σ σ' : Store Mem, Same s.Knows σ σ' →
    (eval I h.value (execAll I h.pre σ').2).1 = (f σ).1 ∧
      Same s.Knows (f σ).2 (eval I h.value (execAll I h.pre σ').2).2

/-- Simple statements change the store as a function does. -/
structure Acts (I : Interp Mem) (s : Supply) (f : Store Mem → Store Mem) (c c' : Supply)
    (ys : List Stmt) : Prop where
  grows : c.Grows c'
  simple : ∀ y ∈ ys, isSimple y = true
  known : ∀ r ∈ regsInAll ys, c'.Knows r
  run : ∀ σ σ' : Store Mem, Same s.Knows σ σ' → Same s.Knows (f σ) (execAll I ys σ').2

/-- Hoisted operands have the values of expressions that are evaluated one after the other. -/
structure HoistsAll (I : Interp Mem) (s : Supply) (es : List Expr) (c c' : Supply)
    (hs : List Hoisted) : Prop where
  grows : c.Grows c'
  length : hs.length = es.length
  neat : ∀ h ∈ hs, Neat c' h
  run : ∀ σ σ' : Store Mem, Same s.Knows σ σ' →
    (runOps I hs σ').1 = (evalAll I es σ).1 ∧ Same s.Knows (evalAll I es σ).2 (runOps I hs σ').2

/-- Statements put in front of pure values of expressions that are evaluated one after the other. -/
structure Pulled (I : Interp Mem) (s : Supply) (es : List Expr) (c c' : Supply) (pre : List Stmt)
    (values : List Expr) : Prop where
  grows : c.Grows c'
  simple : ∀ x ∈ pre, isSimple x = true
  known : ∀ r ∈ regsInAll pre, c'.Knows r
  length : values.length = es.length
  pure_values : ∀ e ∈ values, isPure e = true
  known_values : ∀ e ∈ values, ∀ r ∈ regsOf e, c'.Knows r
  run : ∀ σ σ' : Store Mem, Same s.Knows σ σ' →
    (values.map fun e => (eval I e (execAll I pre σ').2).1) = (evalAll I es σ).1 ∧
      Same s.Knows (evalAll I es σ).2 (execAll I pre σ').2

theorem length_evalAll (es : List Expr) (σ : Store Mem) :
    (evalAll I es σ).1.length = es.length := by
  induction es generalizing σ with
  | nil => rfl
  | cons e es ih => rw [evalAll, length_cons, length_cons, ih]

theorem evalAll_append (es es' : List Expr) (σ : Store Mem) :
    evalAll I (es ++ es') σ =
      ((evalAll I es σ).1 ++ (evalAll I es' (evalAll I es σ).2).1,
        (evalAll I es' (evalAll I es σ).2).2) := by
  induction es generalizing σ with
  | nil => rfl
  | cons e es ih =>
    rw [cons_append, evalAll, evalAll, ih]
    rfl

theorem runOps_append (hs hs' : List Hoisted) (σ : Store Mem) :
    runOps I (hs ++ hs') σ =
      ((runOps I hs σ).1 ++ (runOps I hs' (runOps I hs σ).2).1,
        (runOps I hs' (runOps I hs σ).2).2) := by
  induction hs generalizing σ with
  | nil => rfl
  | cons h hs ih =>
    rw [cons_append, runOps, runOps, ih]
    rfl

theorem Neat.mono (hh : Neat c h) (hc : c.Grows c') : Neat c' h :=
  ⟨hh.pre, hh.value, fun r hr => (hh.known_pre r hr).mono hc,
    fun r hr => (hh.known_value r hr).mono hc⟩

namespace Hoists

variable {f : Store Mem → Int64 × Store Mem} {whole : Bool} {h : Hoisted}

theorem neat (hh : Hoists I s f false c c' h) : Neat c' h :=
  ⟨hh.pre, hh.pure_value rfl, hh.known_pre, hh.known_value⟩

/-- An expression without statements is its own canonical form. -/
theorem of_isPure {e : Expr} (he : isPure e = true) (hk : ∀ r ∈ regsOf e, s.Knows r)
    (hs : s.Grows c) : Hoists I s (eval I e) whole c c ⟨[], e⟩ where
  grows := .refl c
  pre := forall_mem_nil _
  whole_value := isWhole_of_isPure he
  pure_value _ := he
  known_pre := forall_mem_nil _
  known_value r hr := (hk r hr).mono hs
  run σ σ' hσ := by
    refine ⟨hσ.eval_of_isPure he hk, ?_⟩
    rw [eval_snd_of_isPure he, eval_snd_of_isPure he]
    exact hσ

theorem after {g : Store Mem → Store Mem} {ys : List Stmt} (hys : Acts I s g c c₁ ys)
    (hh : Hoists I s f whole c₁ c' h) :
    Hoists I s (fun σ => f (g σ)) whole c c' ⟨ys ++ h.pre, h.value⟩ where
  grows := hys.grows.trans hh.grows
  pre := forall_mem_append.mpr ⟨hys.simple, hh.pre⟩
  whole_value := hh.whole_value
  pure_value := hh.pure_value
  known_pre r hr := by
    rw [regsInAll_append, mem_append] at hr
    rcases hr with hr | hr
    · exact (hys.known r hr).mono hh.grows
    · exact hh.known_pre r hr
  known_value := hh.known_value
  run σ σ' hσ := by
    rw [execAll_append_of_isSimple hys.simple]
    exact hh.run _ _ (hys.run σ σ' hσ)

end Hoists

namespace Acts

variable {f g : Store Mem → Store Mem} {ys zs : List Stmt}

theorem nil (I : Interp Mem) (s c : Supply) : Acts I s (fun σ => σ) c c [] :=
  ⟨.refl c, forall_mem_nil _, forall_mem_nil _, fun _ _ h => h⟩

theorem congr (h : Acts I s f c c' ys) (hfg : ∀ σ, f σ = g σ) : Acts I s g c c' ys :=
  (funext hfg : f = g) ▸ h

theorem append (h : Acts I s f c c₁ ys) (h' : Acts I s g c₁ c' zs) :
    Acts I s (fun σ => g (f σ)) c c' (ys ++ zs) where
  grows := h.grows.trans h'.grows
  simple := forall_mem_append.mpr ⟨h.simple, h'.simple⟩
  known r hr := by
    rw [regsInAll_append, mem_append] at hr
    rcases hr with hr | hr
    · exact (h.known r hr).mono h'.grows
    · exact h'.known r hr
  run σ σ' hσ := by
    rw [execAll_append_of_isSimple h.simple]
    exact h'.run _ _ (h.run σ σ' hσ)

end Acts

/-! ### Operands -/

namespace HoistsAll

variable {es es' : List Expr} {hs hs' : List Hoisted}

theorem nil (I : Interp Mem) (s c : Supply) : HoistsAll I s [] c c [] :=
  ⟨.refl c, rfl, forall_mem_nil _, fun _ _ h => ⟨rfl, h⟩⟩

theorem append (h : HoistsAll I s es c c₁ hs) (h' : HoistsAll I s es' c₁ c' hs') :
    HoistsAll I s (es ++ es') c c' (hs ++ hs') where
  grows := h.grows.trans h'.grows
  length := by rw [length_append, length_append, h.length, h'.length]
  neat := forall_mem_append.mpr ⟨fun x hx => (h.neat x hx).mono h'.grows, h'.neat⟩
  run σ σ' hσ := by
    obtain ⟨h1, h2⟩ := h.run σ σ' hσ
    obtain ⟨h3, h4⟩ := h'.run _ _ h2
    rw [evalAll_append, runOps_append]
    exact ⟨by rw [h1, h3], h4⟩

theorem singleton {e : Expr} (hh : Hoists I s (eval I e) false c c' h) :
    HoistsAll I s [e] c c' [h] where
  grows := hh.grows
  length := rfl
  neat := forall_mem_singleton.mpr hh.neat
  run σ σ' hσ := by
    obtain ⟨h1, h2⟩ := hh.run σ σ' hσ
    rw [eval_snd_of_isPure (hh.pure_value rfl)] at h2
    refine ⟨?_, h2⟩
    show [_] = [_]
    rw [h1]

theorem ends_pull (h : HoistsAll I s es c st.supply hs) (hs' : s.Grows c) :
    Ends (pull hs) st (fun p st' => Pulled I s es c st'.supply p.1 p.2) fun _ => True := by
  have hk : s.Grows st.supply := hs'.trans h.grows
  obtain ⟨h1, h2, h3, h4, h5⟩ := hoistAll_pulls I h.neat
  rw [pull, ends_step]
  refine ⟨h.grows.trans h1, h2, h3, (length_hoistAll hs _).trans h.length, fun e he => (h4 e he).1,
    fun e he => (h4 e he).2, fun σ σ' hσ => ?_⟩
  obtain ⟨h6, h7⟩ := h.run σ σ' hσ
  obtain ⟨h8, h9⟩ := h5 σ'
  exact ⟨h9.trans h6, h7.trans (h8.mono fun r hr => hr.mono hk)⟩

end HoistsAll

theorem ends_pullPair {l r : Expr} {hl hr : Hoisted} (hs : s.Grows c)
    (hhl : Hoists I s (eval I l) false c c₁ hl) (hhr : Hoists I s (eval I r) false c₁ st.supply hr) :
    Ends (pullPair hl hr) st (fun p st' => Pulled I s [l, r] c st'.supply p.1 [p.2.1, p.2.2])
      fun _ => True := by
  have hall := (HoistsAll.singleton hhl).append (.singleton hhr)
  rw [pullPair]
  refine (hall.ends_pull hs).bind fun p st' hp => ?_
  obtain ⟨pre, _ | ⟨a, _ | ⟨b, _ | ⟨_, _⟩⟩⟩⟩ := p
  · cases hp.length
  · cases hp.length
  · exact ends_pure.mpr hp
  · cases hp.length

/-- The operands have their values at the store behind the statements. -/
theorem Pulled.pair {l r a b : Expr} {pre : List Stmt} (h : Pulled I s [l, r] c c' pre [a, b])
    {σ σ' : Store Mem} (hσ : Same s.Knows σ σ') :
    (eval I a (execAll I pre σ').2).1 = (eval I l σ).1 ∧
      (eval I b (execAll I pre σ').2).1 = (eval I r (eval I l σ).2).1 ∧
      Same s.Knows (eval I r (eval I l σ).2).2 (execAll I pre σ').2 := by
  obtain ⟨h1, h2⟩ := h.run σ σ' hσ
  have h3 : [(eval I a (execAll I pre σ').2).1, (eval I b (execAll I pre σ').2).1] =
      [(eval I l σ).1, (eval I r (eval I l σ).2).1] := h1
  injection h3 with h3 h4
  injection h4 with h4 _
  exact ⟨h3, h4, h2⟩

/-! ### Forms of expressions -/

theorem ends_warnDivision {err : Failure → Prop} (op : Op) (e : Expr) (pos : Int) :
    Ends (warnDivision op e pos) st (fun _ st' => st'.supply = st.supply) err := by
  unfold warnDivision
  split
  · exact ends_modify.mpr rfl
  · exact ends_pure.mpr rfl

theorem Pulled.bin {l r a b : Expr} {pre : List Stmt} {op : Op} {pos : Int} {whole : Bool}
    (h : Pulled I s [l, r] c c' pre [a, b]) :
    Hoists I s (eval I (.bin op l r pos)) whole c c' ⟨pre, .fold op a b pos⟩ := by
  have ha : isPure a = true := h.pure_values a mem_cons_self
  have hb : isPure b = true := h.pure_values b (mem_cons_of_mem _ mem_cons_self)
  have hfold : isPure (.fold op a b pos) = true := isPure_fold ha hb
  refine ⟨h.grows, h.simple, isWhole_of_isPure hfold, fun _ => hfold, h.known, fun w hw => ?_,
    fun σ σ' hσ => ?_⟩
  · rcases mem_regsOf_fold hw with hw | hw
    · exact h.known_values a mem_cons_self w hw
    · exact h.known_values b (mem_cons_of_mem _ mem_cons_self) w hw
  · obtain ⟨h1, h2, h3⟩ := h.pair hσ
    rw [eval_fold ha hb, eval_snd_of_isPure hfold, h1, h2]
    exact ⟨rfl, h3⟩

theorem Hoists.mem {a : Expr} {whole : Bool} (ha : Hoists I s (eval I a) false c c' h) :
    Hoists I s (eval I (.mem a)) whole c c' ⟨h.pre, .mem h.value⟩ := by
  have hpure : isPure (.mem h.value) = true := ha.pure_value rfl
  refine ⟨ha.grows, ha.pre, hpure, fun _ => hpure, ha.known_pre, ha.known_value,
    fun σ σ' hσ => ?_⟩
  obtain ⟨h1, h2⟩ := ha.run σ σ' hσ
  rw [eval_snd_of_isPure (ha.pure_value rfl)] at h2
  rw [eval_mem_fst (ha.pure_value rfl), eval_snd_of_isPure hpure, h1, h2.mem]
  exact ⟨rfl, h2⟩

theorem eval_call (f : Expr) (args : List Expr) (link : Expr) (σ : Store Mem) :
    eval I (.call f args link) σ =
      I.invoke (eval I f σ).1 (evalAll I args (eval I f σ).2).1
        (evalAll I (linkOperands link) (evalAll I args (eval I f σ).2).2).1.head?
        (evalAll I (linkOperands link) (evalAll I args (eval I f σ).2).2).2 := by
  rw [eval, linkOperands]
  dsimp only
  split <;> rfl

theorem callOf_append (f : Expr) (args links : List Expr) (n : Nat) (linked : Bool)
    (hn : args.length = n) (hl : links.length = if linked then 1 else 0) :
    callOf (f :: (args ++ links)) n linked = .call f args (links.headD .missing) := by
  subst hn
  unfold callOf
  rw [drop_one, tail_cons, take_left]
  cases linked with
  | false =>
    rw [if_neg Bool.false_ne_true, length_eq_zero_iff] at hl
    rw [hl]
    rfl
  | true =>
    rw [if_pos rfl, length_eq_one_iff] at hl
    obtain ⟨l, rfl⟩ := hl
    rw [← cons_append, getLastD_concat]
    rfl

theorem isPresent_of_isPure {e : Expr} (h : isPure e = true) : e.isPresent = true := by
  cases e with
  | missing => cases h
  | int | addr | temp | bin | mem | call | eseq => rfl

theorem linkOf_headD {links : List Expr} (hp : ∀ e ∈ links, isPure e = true) (σ : Store Mem) :
    linkOf I (links.headD .missing) σ = (links.map fun e => (eval I e σ).1).head? := by
  cases links with
  | nil => rfl
  | cons l ls => exact if_pos (isPresent_of_isPure (hp l mem_cons_self))

/-- A call of pulled operands does what the call does. -/
theorem Pulled.call {f link : Expr} {args : List Expr} {pre : List Stmt} {values : List Expr}
    (h : Pulled I s (f :: (args ++ linkOperands link)) c c' pre values) :
    Hoists I s (eval I (.call f args link)) true c c'
      ⟨pre, callOf values args.length link.isPresent⟩ := by
  have hlen := h.length
  -- the values are those of the callee, the arguments and the link
  match values, hlen with
  | a :: rest, hlen =>
    rw [length_cons, length_cons, length_append, Nat.add_right_cancel_iff] at hlen
    obtain ⟨as, ls, rfl, has, hls⟩ : ∃ as ls, rest = as ++ ls ∧ as.length = args.length ∧
        ls.length = (linkOperands link).length :=
      ⟨rest.take args.length, rest.drop args.length, (take_append_drop _ _).symm,
        by rw [length_take]; omega, by rw [length_drop]; omega⟩
    have hls' : ls.length = if link.isPresent then 1 else 0 := by
      rw [hls, linkOperands]
      split <;> rfl
    rw [callOf_append a as ls _ _ has hls']
    have ha := h.pure_values a mem_cons_self
    have has' : ∀ e ∈ as, isPure e = true := fun e he =>
      h.pure_values e (mem_cons_of_mem _ (mem_append_left _ he))
    have hls'' : ∀ e ∈ ls, isPure e = true := fun e he =>
      h.pure_values e (mem_cons_of_mem _ (mem_append_right _ he))
    have hlink : (ls.headD .missing).isPresent = true → isPure (ls.headD .missing) = true := by
      cases ls with
      | nil => intro hp; cases hp
      | cons l ls => exact fun _ => hls'' l mem_cons_self
    have hwhole : isWhole (.call a as (ls.headD .missing)) = true :=
      isWhole_call_iff.mpr ⟨ha, has', hlink⟩
    refine ⟨h.grows, h.simple, hwhole, nofun, h.known, fun w hw => ?_,
      fun σ σ' hσ => ?_⟩
    · rw [regsOf, mem_append, mem_append, mem_regsOfAll] at hw
      rcases hw with (hw | ⟨e, he, hw⟩) | hw
      · exact h.known_values a mem_cons_self w hw
      · exact h.known_values e (mem_cons_of_mem _ (mem_append_left _ he)) w hw
      · cases ls with
        | nil => cases hw
        | cons l ls =>
          exact h.known_values l
            (mem_cons_of_mem _ (mem_append_right _ mem_cons_self)) w hw
    · obtain ⟨h1, h2⟩ := h.run σ σ' hσ
      rw [evalAll, evalAll_append] at h1 h2
      rw [map_cons, map_append] at h1
      injection h1 with h3 h4
      obtain ⟨h5, h6⟩ := append_inj h4 (by
        rw [length_map, has, length_evalAll])
      rw [eval_call_of_isWhole hwhole, eval_call, h3, h5, linkOf_headD hls'', h6]
      exact h2.invoke _ _ _

/-- A call that may not stay goes through a fresh register. -/
theorem Hoists.throughReg {f : Store Mem → Int64 × Store Mem} (hs : s.Grows c)
    (hh : Hoists I s f true c st.supply h) :
    Ends freshReg st (fun r st' => Hoists I s f false c st'.supply
      ⟨h.pre ++ [.move (.temp (some r)) h.value], .temp (some r)⟩) fun _ => True := by
  rw [freshReg, ends_step]
  show Hoists I s f false c st.supply.freshReg.2 _
  have hmade := st.supply.made_freshReg
  have hgrows := st.supply.grows_freshReg
  generalize st.supply.freshReg = fresh at hmade hgrows ⊢
  obtain ⟨r, c'⟩ := fresh
  dsimp only at hmade hgrows ⊢
  have hnot : ¬ s.Knows (some r) := fun hk => (hk.mono (hs.trans hh.grows)).ne hmade rfl
  refine ⟨hh.grows.trans hgrows, forall_mem_append.mpr
    ⟨hh.pre, forall_mem_singleton.mpr hh.whole_value⟩, rfl, fun _ => rfl, fun w hw => ?_,
    fun w hw => ?_, fun σ σ' hσ => ?_⟩
  · rw [regsInAll_append, mem_append] at hw
    rcases hw with hw | hw
    · exact (hh.known_pre w hw).mono hgrows
    · simp only [regsInAll, regsIn, regsOf, append_nil, mem_append,
        mem_singleton] at hw
      rcases hw with rfl | hw
      · exact hmade.knows
      · exact (hh.known_value w hw).mono hgrows
  · rw [mem_singleton.mp hw]
    exact hmade.knows
  · obtain ⟨h1, h2⟩ := hh.run σ σ' hσ
    rw [execAll_append_of_isSimple hh.pre, execAll_singleton]
    refine ⟨?_, h2.setReg_right hnot _⟩
    show Function.update _ _ _ _ = _
    rw [Function.update_self, h1]

theorem HoistsAll.ends_call {f link : Expr} {args : List Expr} {hs : List Hoisted} (whole : Bool)
    (h : HoistsAll I s (f :: (args ++ linkOperands link)) c st.supply hs) (hs' : s.Grows c) :
    Ends (callFrom hs args.length link.isPresent whole) st
      (fun x st' => Hoists I s (eval I (.call f args link)) whole c st'.supply x)
      fun _ => True := by
  rw [callFrom]
  refine (h.ends_pull hs').bind fun p st₁ h1 => ?_
  obtain ⟨pre, values⟩ := p
  cases whole with
  | true => exact ends_pure.mpr h1.call
  | false =>
    dsimp only
    rw [if_neg Bool.false_ne_true]
    exact (h1.call.throughReg hs').bind fun r st₂ h2 => ends_pure.mpr h2

/-! ### Forms of statements -/

theorem isPure_of_isConst {e : Expr} (h : e.isConst = true) : isPure e = true := by
  cases e with
  | int | addr => rfl
  | missing | temp | bin | mem | call | eseq => cases h

theorem Hoists.evalStmts {f : Store Mem → Int64 × Store Mem} {whole : Bool}
    (hh : Hoists I s f whole c c' h) : Acts I s (fun σ => (f σ).2) c c' (evalStmts h) := by
  have hpre : Acts I s (fun σ => (f σ).2) c c' (h.pre ++ [.eval h.value]) := by
    refine ⟨hh.grows, forall_mem_append.mpr
      ⟨hh.pre, forall_mem_singleton.mpr hh.whole_value⟩, fun r hr => ?_, fun σ σ' hσ => ?_⟩
    · rw [regsInAll_append, mem_append, regsInAll, regsIn, regsInAll, append_nil] at hr
      exact hr.elim (hh.known_pre r) (hh.known_value r)
    · rw [execAll_append_of_isSimple hh.pre, execAll_singleton]
      exact (hh.run σ σ' hσ).2
  unfold Canonical.evalStmts
  split
  · rename_i hconst
    refine ⟨hh.grows, hh.pre, hh.known_pre, fun σ σ' hσ => ?_⟩
    have h2 := (hh.run σ σ' hσ).2
    rwa [eval_snd_of_isPure (isPure_of_isConst hconst)] at h2
  · exact hpre

theorem Hoists.moveToReg {f : Store Mem → Int64 × Store Mem} {r : Option Reg}
    {whole : Bool} (hh : Hoists I s f whole c c' h) (hr : c'.Knows r) :
    Acts I s (fun σ => (f σ).2.setReg r (f σ).1) c c' (h.pre ++ [.move (.temp r) h.value]) := by
  refine ⟨hh.grows, forall_mem_append.mpr
    ⟨hh.pre, forall_mem_singleton.mpr hh.whole_value⟩, fun w hw => ?_, fun σ σ' hσ => ?_⟩
  · simp only [regsInAll_append, regsInAll, regsIn, regsOf, append_nil, mem_append,
      mem_singleton] at hw
    rcases hw with hw | rfl | hw
    · exact hh.known_pre w hw
    · exact hr
    · exact hh.known_value w hw
  · obtain ⟨h1, h2⟩ := hh.run σ σ' hσ
    rw [execAll_append_of_isSimple hh.pre, execAll_singleton]
    show Same s.Knows _ ((eval I h.value _).2.setReg r _)
    rw [h1]
    exact h2.setReg r _

/-- A move to memory whose address is pure and has its value also in front of the source. -/
theorem Hoists.moveToMem {f g : Store Mem → Int64 × Store Mem} {a : Expr}
    {whole : Bool} (hh : Hoists I s f whole c c' h) (ha : isPure a = true)
    (hk : ∀ r ∈ regsOf a, c'.Knows r)
    (hrun : ∀ σ σ' : Store Mem, Same s.Knows σ σ' →
      (eval I a (execAll I h.pre σ').2).1 = (g σ).1) :
    Acts I s (fun σ => (f σ).2.write I (g σ).1 (f σ).1) c c'
      (h.pre ++ [.move (.mem a) h.value]) := by
  refine ⟨hh.grows, forall_mem_append.mpr ⟨hh.pre, forall_mem_singleton.mpr ?_⟩,
    fun w hw => ?_, fun σ σ' hσ => ?_⟩
  · rw [isSimple, ha, hh.whole_value]
    rfl
  · simp only [regsInAll_append, regsInAll, regsIn, regsOf, append_nil,
      mem_append] at hw
    rcases hw with hw | hw | hw
    · exact hh.known_pre w hw
    · exact hk w hw
    · exact hh.known_value w hw
  · obtain ⟨h1, h2⟩ := hh.run σ σ' hσ
    rw [execAll_append_of_isSimple hh.pre, execAll_singleton, exec_move_mem ha, hrun σ σ' hσ, h1]
    exact h2.write _ _

/-- The second of two operands, as a value behind the statements of both. -/
theorem Pulled.second {l r a b : Expr} {pre : List Stmt} (h : Pulled I s [l, r] c c' pre [a, b]) :
    Hoists I s (fun σ => eval I r (eval I l σ).2) false c c' ⟨pre, b⟩ := by
  have hb := h.pure_values b (mem_cons_of_mem _ mem_cons_self)
  refine ⟨h.grows, h.simple, isWhole_of_isPure hb, fun _ => hb, h.known,
    h.known_values b (mem_cons_of_mem _ mem_cons_self), fun σ σ' hσ => ?_⟩
  obtain ⟨-, h2, h3⟩ := h.pair hσ
  rw [eval_snd_of_isPure hb]
  exact ⟨h2, h3⟩

/-! ### The whole of a tree -/

theorem isPure_of_isLeaf {e : Expr} (h : IsLeaf e) : isPure e = true := by
  cases e with
  | int | addr | temp => rfl
  | missing | bin | mem | call | eseq => cases h

theorem HoistsAll.of_hoistedAll {es : List Expr} {hs : List Hoisted} {st st' : State}
    (h : HoistedAll (fun e w st st' h => Hoists I s (eval I e) w st.supply st'.supply h) es st st' hs) :
    HoistsAll I s es st.supply st'.supply hs := by
  induction h with
  | nil => exact .nil I s _
  | cons he _ ih => exact (HoistsAll.singleton he).append ih

theorem areStraight_iff {es : List Expr} :
    areStraight es = true ↔ ∀ e ∈ es, isStraight e = true := by
  induction es with
  | nil => simp [areStraight]
  | cons e es ih => simp [areStraight, ih]

theorem hoisting_straight (I : Interp Mem) (s : Supply) : Hoisting
    (fun e w st st' h => (isStraight e = true ∧ ∀ r ∈ regsOf e, s.Knows r) ∧ s.Grows st.supply →
      Hoists I s (eval I e) w st.supply st'.supply h)
    (fun x st st' ys => (runsThrough x = true ∧ ∀ r ∈ regsIn x, s.Knows r) ∧ s.Grows st.supply →
      Acts I s (fun σ => (exec I x σ).2) st.supply st'.supply ys) where
  leaf hleaf h := .of_isPure (isPure_of_isLeaf hleaf) h.1.2 h.2
  bin h1 h2 := ends_of_imp fun ⟨⟨he, hk⟩, hs⟩ => by
    rw [isStraight, Bool.and_eq_true] at he
    rw [regsOf, forall_mem_append] at hk
    have h1 := h1 ⟨⟨he.1, hk.1⟩, hs⟩
    have h2 := h2 ⟨⟨he.2, hk.2⟩, hs.trans h1.grows⟩
    refine (ends_pullPair hs h1 h2).bind fun p st₃ h3 => ?_
    refine (ends_warnDivision _ p.2.2 _).bind fun _ st₄ h4 => ?_
    exact ends_pure.mpr (h4 ▸ h3.bin)
  mem h1 h := (h1 h).mem
  call hall := ends_of_imp fun ⟨⟨he, hk⟩, hs⟩ => by
    simp only [isStraight, Bool.and_eq_true, areStraight_iff] at he
    rw [regsOf, forall_mem_append, forall_mem_append] at hk
    have hargs (e : Expr) (h : e ∈ _) := And.intro (he.1.2 e h) fun r hr =>
      hk.1.2 r (mem_regsOfAll.mpr ⟨e, h, hr⟩)
    have hall := hall.of_imp (fun hst h => hst.trans h.grows)
      (forall_mem_operands ⟨he.1.1, hk.1.1⟩ hargs fun _ => ⟨he.2, hk.2⟩) hs
    exact (HoistsAll.of_hoistedAll hall).ends_call _ hs
  eseq h1 h2 := fun ⟨⟨he, hk⟩, hs⟩ => by
    rw [isStraight, Bool.and_eq_true] at he
    rw [regsOf, forall_mem_append] at hk
    have h1 := h1 ⟨⟨he.1, hk.1⟩, hs⟩
    have h3 := Hoists.after h1 (h2 ⟨⟨he.2, hk.2⟩, hs.trans h1.grows⟩)
    exact h3
  nil _ := .nil I s _
  cons h1 h2 := fun ⟨⟨hx, hk⟩, hs⟩ => by
    rw [runsThrough, runThrough, Bool.and_eq_true] at hx
    rw [regsIn, regsInAll, forall_mem_append] at hk
    have h1 := h1 ⟨⟨hx.1, hk.1⟩, hs⟩
    refine (h1.append (h2 ⟨⟨hx.2, hk.2⟩, hs.trans h1.grows⟩)).congr fun σ => ?_
    rw [exec, exec, execAll_cons_of_next (exec_fst_of_runsThrough hx.1 σ)]
  place := nofun
  eval h1 h := (h1 h).evalStmts
  jump _ _ := nofun
  cjump _ _ _ _ := ends_of_imp nofun
  toReg h1 := fun ⟨⟨hx, hk⟩, hs⟩ => by
    rw [runsThrough, Bool.and_eq_true] at hx
    rw [regsIn, forall_mem_append] at hk
    have h1 := h1 ⟨⟨hx.2, hk.2⟩, hs⟩
    exact h1.moveToReg ((hk.1 _ mem_cons_self).mono (hs.trans h1.grows))
  toFixed h1 := fun ⟨⟨hx, hk⟩, hs⟩ => by
    rw [runsThrough, Bool.and_eq_true] at hx
    exact (h1 ⟨⟨hx.2, hk⟩, hs⟩).moveToMem rfl (forall_mem_nil _) fun _ _ _ => rfl
  toMem _ h1 h2 := ends_of_imp fun ⟨⟨hx, hk⟩, hs⟩ => by
    rw [runsThrough, Bool.and_eq_true] at hx
    rw [regsIn, forall_mem_append] at hk
    have h1 := h1 ⟨⟨hx.1, hk.1⟩, hs⟩
    have h2 := h2 ⟨⟨hx.2, hk.2⟩, hs.trans h1.grows⟩
    refine (ends_pullPair hs h1 h2).bind fun p st₃ h3 => ends_pure.mpr ?_
    exact h3.second.moveToMem (h3.pure_values _ mem_cons_self) (h3.known_values _ mem_cons_self)
      fun σ σ' hσ => (h3.pair hσ).1
  behind h1 h2 := fun ⟨⟨hx, hk⟩, hs⟩ => by
    simp only [runsThrough, isStraight, Bool.and_eq_true] at hx
    rw [regsIn, regsOf, append_assoc, forall_mem_append] at hk
    have h1 := h1 ⟨⟨hx.1.1, hk.1⟩, hs⟩
    refine h1.append (h2 ⟨⟨?_, hk.2⟩, hs.trans h1.grows⟩)
    rw [runsThrough, hx.1.2, hx.2]
    rfl
  nothing hx _ := by
    obtain rfl | ⟨e, rfl, hconst⟩ := hx
    · exact .nil I s _
    · refine (Acts.nil I s _).congr fun σ => ?_
      exact (eval_snd_of_isPure (isPure_of_isConst hconst) σ).symm

theorem hoistExpr_hoists (I : Interp Mem) {st : State} (e : Expr) (whole : Bool)
    (hstraight : isStraight e = true) (hknown : ∀ r ∈ regsOf e, s.Knows r) (hs : s.Grows st.supply) :
    Ends (hoistExpr e whole) st
      (fun h st' => Hoists I s (eval I e) whole st.supply st'.supply h) fun _ => True :=
  ((hoisting_straight I s).expr e whole st).imp fun _ _ h => h ⟨⟨hstraight, hknown⟩, hs⟩

theorem hoistStmt_acts (I : Interp Mem) {st : State} (x : Stmt) (hruns : runsThrough x = true)
    (hknown : ∀ r ∈ regsIn x, s.Knows r) (hs : s.Grows st.supply) :
    Ends (hoistStmt x) st
      (fun ys st' => Acts I s (fun σ => (exec I x σ).2) st.supply st'.supply ys) fun _ => True :=
  ((hoisting_straight I s).stmt x st).imp fun _ _ h => h ⟨⟨hruns, hknown⟩, hs⟩

end Codegen.Semantics
