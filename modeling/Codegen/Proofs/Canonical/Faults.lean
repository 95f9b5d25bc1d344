import Codegen.Proofs.Canonical.Parts

/-!
# Faults of trees

What can be wrong with a tree is listed in the order in which it is met (`Stmt.faults`). A tree
without faults is one in which no part is faulty by itself (`Stmt.faults_eq_nil_iff`). Canonicalization
reports the first fault that it does not pass over, and returns if there is none
(`stmt_refuses`). It passes over two: a move to a register that is not there, and an absent statement
in front of a destination (`moves_pass_faults`).
-/

namespace Codegen

open List

/-! ### Faulty parts -/

/-- Whether a value can be stored there: in a register or in memory, perhaps behind statements. -/
def Expr.isWritable : Expr → Bool
  | .temp _ | .mem _ => true
  | .eseq _ v => v.isWritable
  | .missing | .int _ | .addr _ | .bin .. | .call .. => false

/-- Whether something is wrong with a node itself. -/
def Node.isFaulty : Node → Bool
  | .expr .missing | .stmt .missing => true
  | .expr (.temp r) => r.isNone
  | .stmt (.place l) => l.isNone
  | .stmt (.jump _ targets) => targets.isEmpty
  | .stmt (.cjump _ _ _ t f) => t.isNone || f.isNone
  | .stmt (.move d _) => !d.isWritable
  | .expr _ | .stmt _ => false

/-- Whether the condition is one of those there are, if the node is a conditional jump. -/
def Node.hasKnownCond : Node → Bool
  | .stmt (.cjump c _ _ _ _) => c.isKnown
  | .expr _ | .stmt _ => true

mutual

/-- All nodes of an expression. A link that is not there is no node. -/
def Expr.nodes : Expr → List Node
  | .missing => [.expr .missing]
  | .int v => [.expr (.int v)]
  | .addr l => [.expr (.addr l)]
  | .temp r => [.expr (.temp r)]
  | .bin op l r pos => .expr (.bin op l r pos) :: (l.nodes ++ r.nodes)
  | .mem a => .expr (.mem a) :: a.nodes
  | .call f args link => .expr (.call f args link) ::
      (f.nodes ++ Expr.nodesOf args ++ if link.isPresent then link.nodes else [])
  | .eseq s v => .expr (.eseq s v) :: (s.nodes ++ v.nodes)

/-- All nodes of several expressions. -/
def Expr.nodesOf : List Expr → List Node
  | [] => []
  | e :: rest => e.nodes ++ Expr.nodesOf rest

/-- All nodes of a statement. -/
def Stmt.nodes : Stmt → List Node
  | .missing => [.stmt .missing]
  | .seq list => .stmt (.seq list) :: Stmt.nodesOf list
  | .place l => [.stmt (.place l)]
  | .move d s => .stmt (.move d s) :: (d.nodes ++ s.nodes)
  | .eval e => .stmt (.eval e) :: e.nodes
  | .jump d targets => .stmt (.jump d targets) :: d.nodes
  | .cjump c l r t f => .stmt (.cjump c l r t f) :: (l.nodes ++ r.nodes)

/-- All nodes of several statements. -/
def Stmt.nodesOf : List Stmt → List Node
  | [] => []
  | s :: rest => s.nodes ++ Stmt.nodesOf rest

end

/-! ### Faults in order -/

/-- Something wrong with a tree. Two of its kinds are passed over. -/
inductive Fault
  | reported (why : Malformed)
  /-- The register that is written by a move is absent. -/
  | absentTarget
  /-- A statement in front of the destination of a move is absent. -/
  | absentInFront

/-- A fault, if the condition holds. -/
def faultIf (b : Bool) (f : Fault) : List Fault := if b then [f] else []

mutual

/-- What is wrong with an expression, in the order of evaluation. -/
def Expr.faults : Expr → List Fault
  | .missing => [.reported .absentExpr]
  | .int _ | .addr _ => []
  | .temp r => faultIf r.isNone (.reported .absentReg)
  | .bin _ l r _ => l.faults ++ r.faults
  | .mem a => a.faults
  | .call f args link =>
    f.faults ++ Expr.faultsOf args ++ if link.isPresent then link.faults else []
  | .eseq s v => s.faults false ++ v.faults

/-- What is wrong with several expressions. -/
def Expr.faultsOf : List Expr → List Fault
  | [] => []
  | e :: rest => e.faults ++ Expr.faultsOf rest

/-- What is wrong with a statement. Where it stands in front of a destination, it may be absent. -/
def Stmt.faults (inFront : Bool) : Stmt → List Fault
  | .missing => [if inFront then .absentInFront else .reported .absentStmt]
  | .seq list => Stmt.faultsOf inFront list
  | .place l => faultIf l.isNone (.reported .absentLabel)
  | .move d s => d.faultsAsTarget ++ s.faults
  | .eval e => e.faults
  | .jump d targets =>
    faultIf targets.isEmpty (.reported (.jumpNowhere (.jump d targets))) ++ d.faults
  | .cjump c l r t f =>
    faultIf (t.isNone || f.isNone) (.reported (.branchNowhere (.cjump c l r t f))) ++
      (l.faults ++ r.faults)

/-- What is wrong with several statements. -/
def Stmt.faultsOf (inFront : Bool) : List Stmt → List Fault
  | [] => []
  | s :: rest => s.faults inFront ++ Stmt.faultsOf inFront rest

/-- What is wrong with the destination of a move. Its register may be absent. -/
def Expr.faultsAsTarget : Expr → List Fault
  | .temp r => faultIf r.isNone .absentTarget
  | .mem a => a.faults
  | .eseq s v => s.faults true ++ v.faultsAsTarget
  | .missing => [.reported (.badDestination .missing)]
  | .int v => [.reported (.badDestination (.int v))]
  | .addr l => [.reported (.badDestination (.addr l))]
  | .bin op l r pos => [.reported (.badDestination (.bin op l r pos))]
  | .call f args link => [.reported (.badDestination (.call f args link))]

end

theorem faultIf_eq_nil_iff {b : Bool} {f : Fault} : faultIf b f = [] ↔ b = false := by
  cases b <;> simp [faultIf]

mutual

theorem Expr.faults_eq_nil_iff (e : Expr) :
    e.faults = [] ↔ ∀ x ∈ e.nodes, x.isFaulty = false := by
  cases e with
  | missing => simp [Expr.faults, Expr.nodes, Node.isFaulty]
  | int v => simp [Expr.faults, Expr.nodes, Node.isFaulty]
  | addr l => simp [Expr.faults, Expr.nodes, Node.isFaulty]
  | temp r => simp [Expr.faults, Expr.nodes, Node.isFaulty, faultIf_eq_nil_iff]
  | bin op l r pos =>
    simp [Expr.faults, Expr.nodes, Node.isFaulty, l.faults_eq_nil_iff, r.faults_eq_nil_iff, or_imp,
      forall_and]
  | mem a => simp [Expr.faults, Expr.nodes, Node.isFaulty, a.faults_eq_nil_iff]
  | call f args link =>
    have hf := f.faults_eq_nil_iff
    have hargs := Expr.faultsOf_eq_nil_iff args
    have hlink := link.faults_eq_nil_iff
    cases hp : link.isPresent with
    | false => simp [Expr.faults, Expr.nodes, Node.isFaulty, hf, hargs, hp, or_imp, forall_and]
    | true =>
      simp [Expr.faults, Expr.nodes, Node.isFaulty, hf, hargs, hlink, hp, or_imp, forall_and]
  | eseq s v =>
    simp [Expr.faults, Expr.nodes, Node.isFaulty, s.faults_eq_nil_iff, v.faults_eq_nil_iff, or_imp,
      forall_and]

theorem Expr.faultsOf_eq_nil_iff (es : List Expr) :
    Expr.faultsOf es = [] ↔ ∀ x ∈ Expr.nodesOf es, x.isFaulty = false := by
  cases es with
  | nil => simp [Expr.faultsOf, Expr.nodesOf]
  | cons e es =>
    simp [Expr.faultsOf, Expr.nodesOf, e.faults_eq_nil_iff, Expr.faultsOf_eq_nil_iff es, or_imp,
      forall_and]

theorem Stmt.faults_eq_nil_iff (s : Stmt) (inFront : Bool) :
    s.faults inFront = [] ↔ ∀ x ∈ s.nodes, x.isFaulty = false := by
  cases s with
  | missing => simp [Stmt.faults, Stmt.nodes, Node.isFaulty]
  | seq list =>
    simp [Stmt.faults, Stmt.nodes, Node.isFaulty, Stmt.faultsOf_eq_nil_iff list]
  | place l => simp [Stmt.faults, Stmt.nodes, Node.isFaulty, faultIf_eq_nil_iff]
  | move d e =>
    simp [Stmt.faults, Stmt.nodes, Node.isFaulty, d.faultsAsTarget_eq_nil_iff, e.faults_eq_nil_iff,
      or_imp, forall_and, and_assoc]
  | eval e => simp [Stmt.faults, Stmt.nodes, Node.isFaulty, e.faults_eq_nil_iff]
  | jump d targets =>
    simp [Stmt.faults, Stmt.nodes, Node.isFaulty, faultIf_eq_nil_iff, d.faults_eq_nil_iff]
  | cjump c l r t f =>
    simp [Stmt.faults, Stmt.nodes, Node.isFaulty, faultIf_eq_nil_iff, l.faults_eq_nil_iff,
      r.faults_eq_nil_iff, or_imp, forall_and]

theorem Stmt.faultsOf_eq_nil_iff (list : List Stmt) (inFront : Bool) :
    Stmt.faultsOf inFront list = [] ↔ ∀ x ∈ Stmt.nodesOf list, x.isFaulty = false := by
  cases list with
  | nil => simp [Stmt.faultsOf, Stmt.nodesOf]
  | cons s list =>
    simp [Stmt.faultsOf, Stmt.nodesOf, s.faults_eq_nil_iff, Stmt.faultsOf_eq_nil_iff list, or_imp,
      forall_and]

theorem Expr.faultsAsTarget_eq_nil_iff (d : Expr) :
    d.faultsAsTarget = [] ↔ d.isWritable = true ∧ ∀ x ∈ d.nodes, x.isFaulty = false := by
  cases d with
  | temp r =>
    simp [Expr.faultsAsTarget, Expr.isWritable, Expr.nodes, Node.isFaulty, faultIf_eq_nil_iff]
  | mem a =>
    simp [Expr.faultsAsTarget, Expr.isWritable, Expr.nodes, Node.isFaulty, a.faults_eq_nil_iff]
  | eseq s v =>
    simp [Expr.faultsAsTarget, Expr.isWritable, Expr.nodes, Node.isFaulty, s.faults_eq_nil_iff,
      v.faultsAsTarget_eq_nil_iff, or_imp, forall_and, and_left_comm]
  | missing | int | addr | bin | call => simp [Expr.faultsAsTarget, Expr.isWritable]

end

/-- The error without the contexts around it. -/
def Error.cause : Error → Error
  | .within _ e => e.cause
  | e => e

theorem Error.kind_cause (e : Error) : e.cause.kind = e.kind := by
  induction e with
  | within place e ih => rw [Error.cause, Error.kind, ih]
  | _ => rfl

namespace Canonical

open Pass

variable {α β : Type} {fs gs : List Fault} {x : Run α} {e : Failure}

/-! ### What is reported -/

/-- All faults are passed over. -/
def Passed (fs : List Fault) : Prop := ∀ why, .reported why ∉ fs

/-- The failure reports the first fault that is not passed over. -/
def Reports (fs : List Fault) (e : Failure) : Prop :=
  ∃ err before why behind, e = .error err ∧ fs = before ++ .reported why :: behind ∧
    Passed before ∧ err.cause = .malformed why

theorem Passed.append (hfs : Passed fs) (hgs : Passed gs) : Passed (fs ++ gs) := fun why hmem =>
  (mem_append.mp hmem).elim (hfs why) (hgs why)

theorem Reports.append_right (h : Reports fs e) (gs : List Fault) : Reports (fs ++ gs) e := by
  obtain ⟨err, before, why, behind, he, rfl, hrest⟩ := h
  exact ⟨err, before, why, behind ++ gs, he, by simp, hrest⟩

theorem Reports.append_left (hfs : Passed fs) (h : Reports gs e) : Reports (fs ++ gs) e := by
  obtain ⟨err, before, why, behind, he, rfl, hbefore, hcause⟩ := h
  exact ⟨err, fs ++ before, why, behind, he, by simp, hfs.append hbefore, hcause⟩

/-- The stage reports the first of the faults that is not passed over, and returns if there is
none. -/
def Checks (x : Run α) (fs : List Fault) : Prop :=
  ∀ st, Ends x st (fun _ _ => Passed fs) (Reports fs)

namespace Checks

theorem pure (a : α) : Checks (pure a) [] := fun _ => ends_pure.mpr nofun

theorem step (f : State → α × State) : Checks (Pass.step f) [] := fun _ => ends_step.mpr nofun

theorem fail (why : Malformed) (fs : List Fault) :
    Checks (Pass.fail (.malformed why) : Run α) (.reported why :: fs) := fun _ =>
  ends_fail.mpr ⟨_, [], why, fs, rfl, rfl, nofun, rfl⟩

theorem bind {f : α → Run β} (hx : Checks x fs) (hf : ∀ a, Checks (f a) gs) :
    Checks (x >>= f) (fs ++ gs) := by
  intro st
  rw [ends_bind]
  refine (hx st).mono (fun a st' hfs => ?_) fun e he => he.append_right gs
  exact (hf a st').mono (fun b st'' hgs => hfs.append hgs) fun e he => he.append_left hfs

theorem bind_nil {f : α → Run β} (hx : Checks x fs) (hf : ∀ a, Checks (f a) []) :
    Checks (x >>= f) fs := by
  simpa using hx.bind hf

theorem nil_bind {f : α → Run β} (hx : Checks x []) (hf : ∀ a, Checks (f a) fs) :
    Checks (x >>= f) fs := hx.bind hf

theorem map (f : α → β) (hx : Checks x fs) : Checks (f <$> x) fs := fun st =>
  ends_map.mpr (hx st)

theorem within (hx : Checks x fs) (place : Context) : Checks (Pass.within place x) fs := by
  intro st
  refine ends_within.mpr ((hx st).mono (fun _ _ => id) fun e he => ?_)
  obtain ⟨err, before, why, behind, rfl, hfs, hbefore, hcause⟩ := he
  exact ⟨.within place err, before, why, behind, rfl, hfs, hbefore, hcause⟩

/-- Faults that are passed over do not matter. -/
theorem pass (hx : Checks x fs) (hgs : Passed gs) : Checks x (gs ++ fs) := fun st =>
  (hx st).mono (fun _ _ hfs => hgs.append hfs) fun _ he => he.append_left hgs

/-- What comes after a failure does not matter. -/
theorem stop {why : Malformed} (hx : Checks x [.reported why]) (f : α → Run β) (fs : List Fault) :
    Checks (x >>= f) (.reported why :: fs) := by
  intro st
  rw [ends_bind]
  refine (hx st).mono (fun a st' hpassed => ?_) fun e he => he.append_right fs
  exact absurd mem_cons_self (hpassed why)

theorem failIf {b : Bool} {f : Fault} {y : Run α} (hy : Checks y (f :: fs)) (hx : Checks x fs) :
    Checks (if b = true then y else x) (faultIf b f ++ fs) := by
  cases b with
  | true => exact hy
  | false => exact hx

end Checks

theorem checks_pullPair (a b : Hoisted) : Checks (pullPair a b) [] :=
  (Checks.step _).nil_bind fun _ => .pure _

theorem checks_warnDivision (op : Op) (e : Expr) (pos : Int) : Checks (warnDivision op e pos) [] := by
  unfold warnDivision
  split
  · exact fun st => ends_modify.mpr nofun
  · exact .pure _

theorem checks_placeStmts (l : Option Label) :
    Checks (placeStmts l) (faultIf l.isNone (.reported .absentLabel)) := by
  cases l with
  | none => exact .fail _ _
  | some l => exact .pure _

/-- With a known condition a branch can be decided. -/
theorem checks_branchStmts {c : Cond} (hc : c.isKnown = true) (l r : Hoisted) (t f : Option Label) :
    Checks (branchStmts c l r t f) [] := by
  refine (checks_pullPair l r).nil_bind fun p => ?_
  obtain ⟨pre, a, b⟩ := p
  dsimp only
  split
  · rename_i x y
    obtain ⟨holds, hholds⟩ : ∃ holds, c.holds? x y = some holds := by
      cases c <;> simp_all [Cond.isKnown, Cond.holds?]
    rw [hholds]
    exact .pure _
  · exact .pure _

/-! ### What canonicalization reports -/

mutual

theorem hoistExpr_checks (e : Expr) (whole : Bool) (he : ∀ x ∈ e.nodes, x.hasKnownCond = true) :
    Checks (hoistExpr e whole) e.faults := by
  cases e with
  | missing =>
    rw [hoistExpr, Expr.faults]
    exact .fail _ _
  | int v =>
    rw [hoistExpr, Expr.faults]
    exact .pure _
  | addr l =>
    rw [hoistExpr, Expr.faults]
    exact .pure _
  | temp r =>
    cases r with
    | none =>
      rw [hoistExpr, Expr.faults]
      exact .fail _ _
    | some r =>
      rw [hoistExpr, Expr.faults]
      exact .pure _
  | bin op l r pos =>
    simp only [Expr.nodes, forall_mem_cons, forall_mem_append] at he
    rw [hoistExpr, Expr.faults]
    refine (hoistExpr_checks l false he.2.1).bind fun l => ?_
    refine (hoistExpr_checks r false he.2.2).bind_nil fun r => ?_
    refine (checks_pullPair l r).nil_bind fun p => ?_
    exact (checks_warnDivision op p.2.2 pos).nil_bind fun _ => .pure _
  | mem a =>
    simp only [Expr.nodes, forall_mem_cons] at he
    rw [hoistExpr, Expr.faults]
    exact (hoistExpr_checks a false he.2).bind_nil fun a => .pure _
  | call f args link =>
    simp only [Expr.nodes, forall_mem_cons, forall_mem_append] at he
    rw [hoistExpr, Expr.faults, append_assoc]
    refine ((hoistExpr_checks f false he.2.1.1).within _).bind fun f => ?_
    refine (hoistArgs_checks 0 args he.2.1.2).bind fun as => ?_
    have hcall (ls : List Hoisted) : Checks (do
        let (pre, values) ← pull (f :: as ++ ls)
        let call := callOf values args.length link.isPresent
        if whole then return (⟨pre, call⟩ : Hoisted)
        else
          let r ← freshReg
          return ⟨pre ++ [.move (.temp (some r)) call], .temp (some r)⟩) [] := by
      refine (Checks.step _).nil_bind fun p => ?_
      cases whole with
      | true => exact .pure _
      | false => exact (Checks.step _).nil_bind fun r => .pure _
    cases hp : link.isPresent with
    | true =>
      rw [if_pos hp] at he
      simp only [if_true]
      exact (((hoistExpr_checks link false he.2.2).within _).map _).bind_nil fun ls => hp ▸ hcall ls
    | false =>
      simp only [Bool.false_eq_true, if_false]
      exact (Checks.pure _).nil_bind fun ls => hp ▸ hcall ls
  | eseq s v =>
    simp only [Expr.nodes, forall_mem_cons, forall_mem_append] at he
    rw [hoistExpr, Expr.faults]
    refine (hoistStmt_checks s he.2.1).bind fun first => ?_
    exact (hoistExpr_checks v whole he.2.2).bind_nil fun v => .pure _

theorem hoistArgs_checks (i : Nat) (es : List Expr)
    (hes : ∀ x ∈ Expr.nodesOf es, x.hasKnownCond = true) :
    Checks (hoistArgs i es) (Expr.faultsOf es) := by
  cases es with
  | nil =>
    rw [hoistArgs, Expr.faultsOf]
    exact .pure _
  | cons e es =>
    simp only [Expr.nodesOf, forall_mem_append] at hes
    rw [hoistArgs, Expr.faultsOf]
    refine ((hoistExpr_checks e false hes.1).within _).bind fun a => ?_
    exact (hoistArgs_checks (i + 1) es hes.2).bind_nil fun rest => .pure _

theorem hoistStmt_checks (s : Stmt) (hs : ∀ x ∈ s.nodes, x.hasKnownCond = true) :
    Checks (hoistStmt s) (s.faults false) := by
  cases s with
  | missing =>
    rw [hoistStmt, Stmt.faults]
    exact .fail _ _
  | seq list =>
    simp only [Stmt.nodes, forall_mem_cons] at hs
    rw [hoistStmt, Stmt.faults]
    exact hoistList_checks 0 list hs.2
  | place l =>
    rw [hoistStmt, Stmt.faults]
    exact checks_placeStmts l
  | move d e =>
    simp only [Stmt.nodes, forall_mem_cons, forall_mem_append] at hs
    rw [hoistStmt, Stmt.faults]
    exact hoistMove_checks d hs.2.1 fun whole => hoistExpr_checks e whole hs.2.2
  | eval e =>
    simp only [Stmt.nodes, forall_mem_cons] at hs
    rw [hoistStmt, Stmt.faults]
    exact (hoistExpr_checks e true hs.2).map _
  | jump d targets =>
    simp only [Stmt.nodes, forall_mem_cons] at hs
    rw [hoistStmt, Stmt.faults]
    refine .failIf ((Checks.fail _ []).stop _ _) ?_
    exact (hoistExpr_checks d false hs.2).bind_nil fun d => .pure _
  | cjump c l r t f =>
    simp only [Stmt.nodes, forall_mem_cons, forall_mem_append] at hs
    rw [hoistStmt, Stmt.faults]
    refine .failIf ((Checks.fail _ []).stop _ _) ?_
    refine (hoistExpr_checks l false hs.2.1).bind fun l => ?_
    exact (hoistExpr_checks r false hs.2.2).bind_nil fun r => checks_branchStmts hs.1 l r t f

theorem hoistList_checks (i : Nat) (list : List Stmt)
    (hlist : ∀ x ∈ Stmt.nodesOf list, x.hasKnownCond = true) :
    Checks (hoistList i list) (Stmt.faultsOf false list) := by
  cases list with
  | nil =>
    rw [hoistList, Stmt.faultsOf]
    exact .pure _
  | cons s list =>
    simp only [Stmt.nodesOf, forall_mem_append] at hlist
    rw [hoistList, Stmt.faultsOf]
    refine ((hoistStmt_checks s hlist.1).within _).bind fun s => ?_
    exact (hoistList_checks (i + 1) list hlist.2).bind_nil fun rest => .pure _

theorem hoistMove_checks (d : Expr) {src : Bool → Run Hoisted} {fs : List Fault}
    (hd : ∀ x ∈ d.nodes, x.hasKnownCond = true) (hsrc : ∀ whole, Checks (src whole) fs) :
    Checks (hoistMove d src) (d.faultsAsTarget ++ fs) := by
  cases d with
  | temp r =>
    rw [hoistMove, Expr.faultsAsTarget]
    refine Checks.pass ((hsrc true).bind_nil fun v => .pure _) fun why hwhy => ?_
    cases r with
    | none => cases mem_singleton.mp hwhy
    | some r => cases hwhy
  | mem a =>
    simp only [Expr.nodes, forall_mem_cons] at hd
    rw [hoistMove, Expr.faultsAsTarget]
    refine (hoistExpr_checks a false hd.2).bind fun addr => ?_
    refine (hsrc _).bind_nil fun v => ?_
    exact (checks_pullPair addr v).nil_bind fun p => .pure _
  | eseq s v =>
    simp only [Expr.nodes, forall_mem_cons, forall_mem_append] at hd
    rw [hoistMove, Expr.faultsAsTarget, append_assoc]
    refine (hoistParts_checks 0 s hd.2.1 (hoistStmt_checks s hd.2.1)).bind fun p => ?_
    have hrest := hoistMove_checks v hd.2.2 hsrc
    obtain ⟨first, n⟩ := p
    dsimp only
    split
    · exact hrest
    · exact (hrest.within _).bind_nil fun rest => .pure _
  | missing | int | addr | bin | call =>
    rw [hoistMove, Expr.faultsAsTarget]
    · exact .fail _ _
    all_goals exact nofun

theorem hoistParts_checks (i : Nat) (s : Stmt) (hs : ∀ x ∈ s.nodes, x.hasKnownCond = true)
    (hstmt : Checks (hoistStmt s) (s.faults false)) : Checks (hoistParts i s) (s.faults true) := by
  have hcases := hoistParts_cases i s
  cases s with
  | missing =>
    rw [hoistParts, Stmt.faults]
    have hpassed : Passed [.absentInFront] := fun why hwhy => by simp at hwhy
    exact (Checks.pure _).pass hpassed
  | seq list =>
    simp only [Stmt.nodes, forall_mem_cons] at hs
    rw [hoistParts, Stmt.faults]
    exact hoistPartsOf_checks i list hs.2
  | place | move | jump | cjump =>
    obtain ⟨h | ⟨e, h, -⟩, -⟩ | h := hcases nofun
    · cases h
    · cases h
    · rw [h]
      exact (hstmt.within _).map _
  | eval e =>
    obtain ⟨h | ⟨_, ⟨⟩, hconst⟩, heq⟩ | h := hcases nofun
    · cases h
    · -- constants have no faults
      rw [heq]
      cases e with
      | int | addr => exact .pure _
      | missing | temp | bin | mem | call | eseq => cases hconst
    · rw [h]
      exact (hstmt.within _).map _

theorem hoistPartsOf_checks (i : Nat) (list : List Stmt)
    (hlist : ∀ x ∈ Stmt.nodesOf list, x.hasKnownCond = true) :
    Checks (hoistPartsOf i list) (Stmt.faultsOf true list) := by
  cases list with
  | nil =>
    rw [hoistPartsOf, Stmt.faultsOf]
    exact .pure _
  | cons s list =>
    simp only [Stmt.nodesOf, forall_mem_append] at hlist
    rw [hoistPartsOf, Stmt.faultsOf]
    refine (hoistParts_checks i s hlist.1 (hoistStmt_checks s hlist.1)).bind fun p => ?_
    exact (hoistPartsOf_checks p.2 list hlist.2).bind_nil fun q => .pure _

end

/-- A statement with known conditions is refused, and then as malformed, just if it has a fault that is
not passed over; else it has a canonical form. What is reported is the first such fault in the order of
evaluation. Without any fault are just the statements in which no node is faulty. -/
theorem stmt_refuses {s : Stmt} (hs : ∀ x ∈ s.nodes, x.hasKnownCond = true) (st : State) :
    ((∃ e st', stmt s st = .error (.error e) st' ∧ e.kind = .malformed) ↔
      ∃ why, .reported why ∈ s.faults false) ∧
    ((∃ t st', stmt s st = .ok t st') ↔
      ∀ f ∈ s.faults false, f = .absentTarget ∨ f = .absentInFront) ∧
    (∀ e st', stmt s st = .error e st' → ∃ err before why behind, e = .error err ∧
      s.faults false = before ++ .reported why :: behind ∧
      (∀ f ∈ before, f = .absentTarget ∨ f = .absentInFront) ∧ err.cause = .malformed why) ∧
    (s.faults false = [] ↔ ∀ x ∈ s.nodes, x.isFaulty = false) := by
  have hpassed {fs : List Fault} : Passed fs ↔ ∀ f ∈ fs, f = .absentTarget ∨ f = .absentInFront := by
    constructor
    · intro h f hf
      cases f with
      | reported why => exact absurd hf (h why)
      | absentTarget => exact Or.inl rfl
      | absentInFront => exact Or.inr rfl
    · intro h why hwhy
      rcases h _ hwhy with h | h <;> cases h
  have hends : Ends (stmt s) st (fun _ _ => Passed (s.faults false)) (Reports (s.faults false)) :=
    ((hoistStmt_checks s hs).map _) st
  cases hrun : stmt s st with
  | ok t st' =>
    have hok := hends.of_ok hrun
    refine ⟨⟨?_, ?_⟩, ⟨fun _ => hpassed.mp hok, fun _ => ⟨t, st', rfl⟩⟩, nofun,
      s.faults_eq_nil_iff false⟩
    · rintro ⟨e, st'', he, -⟩
      cases he
    · rintro ⟨why, hwhy⟩
      exact absurd hwhy (hok why)
  | error e st' =>
    have herr := hends.of_error hrun
    obtain ⟨err, before, why, behind, rfl, hfs, hbefore, hcause⟩ := herr
    have hkind : err.kind = .malformed := by rw [← err.kind_cause, hcause, Error.kind]
    refine ⟨⟨fun _ => ⟨why, by simp [hfs]⟩, fun _ => ⟨err, st', rfl, hkind⟩⟩, ⟨?_, fun h => ?_⟩, ?_,
      s.faults_eq_nil_iff false⟩
    · rintro ⟨t, st'', ht⟩
      cases ht
    · exact absurd (by simp [hfs]) (hpassed.mpr h why)
    · rintro e st'' he
      cases he
      exact ⟨err, before, why, behind, rfl, hfs, hpassed.mp hbefore, hcause⟩

/-- A move to no register, a branch, and a jump that goes nowhere. -/
def strayJump : Stmt :=
  .seq [.move (.temp none) (.int 1),
    .cjump .lt (.temp (some ⟨0, 0, "a"⟩)) (.int 2) (some ⟨0, 0, "l"⟩) (some ⟨0, 1, "m"⟩),
    .jump (.addr (some ⟨0, 0, "l"⟩)) []]

theorem strayJump_refused :
    (∀ x ∈ strayJump.nodes, x.hasKnownCond = true) ∧
      ∃ e st', stmt strayJump {} = .error (.error e) st' ∧ e.kind = .malformed :=
  have hknown : ∀ x ∈ strayJump.nodes, x.hasKnownCond = true := by
    simp [strayJump, Stmt.nodes, Stmt.nodesOf, Expr.nodes, Node.hasKnownCond, Cond.isKnown]
  ⟨hknown, (stmt_refuses hknown {}).1.mpr ⟨.jumpNowhere (.jump (.addr (some ⟨0, 0, "l"⟩)) []), by
    simp [strayJump, Stmt.faults, Stmt.faultsOf, Expr.faults, Expr.faultsAsTarget, faultIf]⟩⟩

/-- Two statements that have canonical forms though a node in them is faulty: a move to no register,
and a move to a register with no statement in front of it. -/
theorem moves_pass_faults :
    ((∃ x ∈ (Stmt.move (.temp none) (.int 1)).nodes, x.isFaulty = true) ∧
      ∃ t st', stmt (.move (.temp none) (.int 1)) {} = .ok t st') ∧
    (∃ x ∈ (Stmt.move (.eseq .missing (.temp (some ⟨0, 0, "a"⟩))) (.int 1)).nodes,
      x.isFaulty = true) ∧
    ∃ t st', stmt (.move (.eseq .missing (.temp (some ⟨0, 0, "a"⟩))) (.int 1)) {} = .ok t st' :=
  ⟨⟨⟨.expr (.temp none), by simp [Stmt.nodes, Expr.nodes], rfl⟩, _, _, rfl⟩,
    ⟨.stmt .missing, by simp [Stmt.nodes, Expr.nodes], rfl⟩, _, _, rfl⟩

end Canonical

end Codegen
