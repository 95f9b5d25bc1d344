import Codegen.Coloring.Assign
import Codegen.Proofs.Liveness.Renaming

/-!
# Coloring under other registers

Coloring works on numbers. What the numbers stand for comes up only in what is told: if the registers
of a coloring are replaced, every step does the same (`apply_mapRegs`), and so does the whole run,
which tells the same about the other registers (`run_mapRegs`).
-/

namespace Codegen

open List

/-- The event with the registers that coloring tells about replaced. -/
def Event.mapRegs (φ : Option Reg → Option Reg) : Event → Event
  | .node phase r s color d adj => .node phase (φ r) s color d (adj.map φ)
  | .move phase i dst src s => .move phase i (φ dst) (φ src) s
  | .simplify r d => .simplify (φ r) d
  | .constrained dst src => .constrained (φ dst) (φ src)
  | .coalesce keep merge => .coalesce (φ keep) (φ merge)
  | .freeze r => .freeze (φ r)
  | .potentialSpill r cost n => .potentialSpill (φ r) cost n
  | .spill r n => .spill (φ r) n
  | e => e

/-- The error with the registers that allocation reports replaced. -/
def Error.mapRegs (φ : Option Reg → Option Reg) : Error → Error
  | .notAllocatable r => .notAllocatable (φ r)
  | .colorClash i d v color => .colorClash i (φ d) (φ v) color
  | .temporaryStuck r k => .temporaryStuck (φ r) k
  | e => e

namespace Coloring

variable {φ : Option Reg → Option Reg} {c : Coloring}

/-- The coloring with the registers that its nodes stand for replaced. -/
def mapRegs (φ : Option Reg → Option Reg) (c : Coloring) : Coloring :=
  { c with live := c.live.mapRegs φ }

@[simp] theorem size_mapRegs : (c.mapRegs φ).size = c.size := Liveness.size_regs_mapRegs

theorem start_mapRegs (l : Liveness) (k : Nat) : start (l.mapRegs φ) k = (start l k).mapRegs φ := by
  simp [start, mapRegs, Liveness.mapRegs]

/-- A loop does the same if its body does. -/
theorem foldl_mapRegs {α : Type} {f : Coloring → α → Coloring}
    (h : ∀ c a, f (c.mapRegs φ) a = (f c a).mapRegs φ) (list : List α) (c : Coloring) :
    list.foldl f (c.mapRegs φ) = (list.foldl f c).mapRegs φ :=
  foldl_hom (mapRegs φ) h

/-- A choice does the same if both of its sides do. -/
theorem ite_mapRegs {p : Prop} [Decidable p] {a b a' b' : Coloring} (ha : a' = a.mapRegs φ)
    (hb : b' = b.mapRegs φ) : (if p then a' else b') = (if p then a else b).mapRegs φ := by
  rw [ha, hb, apply_ite (mapRegs φ)]

section

variable (c)

theorem setNode_mapRegs (n : Nat) (s : NodeState) :
    (c.mapRegs φ).setNode n s = (c.setNode n s).mapRegs φ := rfl

theorem setMove_mapRegs (m : Nat) (s : MoveState) :
    (c.mapRegs φ).setMove m s = (c.setMove m s).mapRegs φ := rfl

theorem adjacent_mapRegs (n : Nat) : (c.mapRegs φ).adjacent n = c.adjacent n := rfl

/-! ### Building the graph -/

theorem note_mapRegs (a b : Nat) :
    (c.mapRegs φ).note a b = (c.note a b).mapRegs φ := ite_mapRegs rfl rfl

theorem connect_mapRegs (a b : Nat) : (c.mapRegs φ).connect a b = (c.connect a b).mapRegs φ := by
  refine ite_mapRegs rfl ?_
  dsimp only
  rw [← note_mapRegs, ← note_mapRegs]
  rfl

theorem relate_mapRegs (i : Nat) : (c.mapRegs φ).relate i = (c.relate i).mapRegs φ := by
  unfold relate
  rw [show (c.mapRegs φ).live.movePair? i = c.live.movePair? i from rfl]
  cases c.live.movePair? i with
  | none => rfl
  | some p => rfl

theorem buildAt_mapRegs (i : Nat) : (c.mapRegs φ).buildAt i = (c.buildAt i).mapRegs φ := by
  unfold buildAt
  dsimp only
  rw [relate_mapRegs]
  exact foldl_mapRegs (fun c d => foldl_mapRegs (fun c v => connect_mapRegs c d v) _ c) _ _

theorem build_mapRegs : (c.mapRegs φ).build = c.build.mapRegs φ := by
  unfold build
  dsimp only
  rw [foldl_mapRegs buildAt_mapRegs]
  rfl

theorem classifyNode_mapRegs (n : Nat) :
    (c.mapRegs φ).classifyNode n = (c.classifyNode n).mapRegs φ := ite_mapRegs rfl rfl

theorem classify_mapRegs : (c.mapRegs φ).classify = c.classify.mapRegs φ := by
  unfold classify
  rw [size_mapRegs]
  exact foldl_mapRegs classifyNode_mapRegs _ _

/-! ### Steps -/

theorem findFrom_mapRegs (fuel n : Nat) : (c.mapRegs φ).findFrom fuel n = c.findFrom fuel n := by
  induction fuel generalizing n with
  | zero => rfl
  | succ fuel ih =>
    unfold findFrom
    rw [ih]
    rfl

@[simp] theorem find_mapRegs (n : Nat) : (c.mapRegs φ).find n = c.find n := by
  unfold find
  rw [size_mapRegs, findFrom_mapRegs]

theorem enableMoves_mapRegs (n : Nat) :
    (c.mapRegs φ).enableMoves n = (c.enableMoves n).mapRegs φ := by
  unfold enableMoves
  refine foldl_mapRegs (fun c m => ?_) (c.openMoves n) c
  exact ite_mapRegs rfl rfl

/-- What is done about a node that has now fewer neighbours than colors. -/
theorem relax_mapRegs (n : Nat) :
    ((c.mapRegs φ).adjacent n).foldl enableMoves (c.mapRegs φ) =
      ((c.adjacent n).foldl enableMoves c).mapRegs φ :=
  foldl_mapRegs enableMoves_mapRegs (c.adjacent n) c

theorem decrement_mapRegs (n : Nat) : (c.mapRegs φ).decrement n = (c.decrement n).mapRegs φ := by
  refine ite_mapRegs rfl (ite_mapRegs rfl ?_)
  dsimp only
  rw [show { c.mapRegs φ with degree := (c.mapRegs φ).degree.modify n (· - 1) } =
    mapRegs φ { c with degree := c.degree.modify n (· - 1) } from rfl, enableMoves_mapRegs,
    relax_mapRegs]
  generalize List.foldl enableMoves _ _ = c
  exact ite_mapRegs rfl (ite_mapRegs rfl rfl)

theorem simplify_mapRegs (n : Nat) : (c.mapRegs φ).simplify n = (c.simplify n).mapRegs φ := by
  unfold simplify
  rw [setNode_mapRegs]
  exact foldl_mapRegs decrement_mapRegs ((c.setNode n .selected).adjacent n) _

theorem unfreeze_mapRegs (n : Nat) :
    (c.mapRegs φ).unfreeze n = (c.unfreeze n).mapRegs φ := ite_mapRegs rfl rfl

theorem combine_mapRegs (u v : Nat) : (c.mapRegs φ).combine u v = (c.combine u v).mapRegs φ := by
  have hbody : ∀ (c : Coloring) t, ((c.mapRegs φ).connect t u).decrement t =
      ((c.connect t u).decrement t).mapRegs φ := fun c t => by
    rw [connect_mapRegs, decrement_mapRegs]
  have hmerge : { (c.mapRegs φ).setNode v .coalesced with
      mergedInto := ((c.mapRegs φ).setNode v .coalesced).mergedInto.setIfInBounds v u
      related := ((c.mapRegs φ).setNode v .coalesced).related.modify u
        (· ++ ((c.mapRegs φ).setNode v .coalesced).openMoves v) } =
      mapRegs φ { c.setNode v .coalesced with
        mergedInto := (c.setNode v .coalesced).mergedInto.setIfInBounds v u
        related := (c.setNode v .coalesced).related.modify u
          (· ++ (c.setNode v .coalesced).openMoves v) } := rfl
  unfold combine
  dsimp only
  rw [hmerge, adjacent_mapRegs, foldl_mapRegs hbody]
  generalize List.foldl _ _ _ = c
  exact ite_mapRegs rfl rfl

theorem moveEnds_mapRegs (m : Nat) : (c.mapRegs φ).moveEnds m = c.moveEnds m := by
  unfold moveEnds
  rw [show (c.mapRegs φ).live.movePair? m = c.live.movePair? m from rfl]
  cases c.live.movePair? m with
  | none => rfl
  | some p =>
    dsimp only
    rw [find_mapRegs, find_mapRegs]
    rfl

theorem judge_mapRegs (m : Nat) : (c.mapRegs φ).judge m = c.judge m := by
  unfold judge
  rw [moveEnds_mapRegs]
  rfl

theorem coalesce_mapRegs (m : Nat) : (c.mapRegs φ).coalesce m = (c.coalesce m).mapRegs φ := by
  unfold coalesce
  rw [judge_mapRegs]
  cases c.judge m with
  | same u =>
    dsimp only
    rw [setMove_mapRegs, unfreeze_mapRegs]
  | constrained u v =>
    dsimp only
    rw [setMove_mapRegs, unfreeze_mapRegs, unfreeze_mapRegs]
  | merge u v =>
    dsimp only
    rw [setMove_mapRegs, combine_mapRegs, unfreeze_mapRegs]
  | wait => rfl

theorem freezeMove_mapRegs (n : Nat) (c : Coloring) (m : Nat) :
    freezeMove n (c.mapRegs φ) m = (freezeMove n c m).mapRegs φ := by
  unfold freezeMove
  rw [show (c.mapRegs φ).live.movePair? m = c.live.movePair? m from rfl]
  cases c.live.movePair? m with
  | none => rfl
  | some p =>
    dsimp only
    rw [find_mapRegs, find_mapRegs, setMove_mapRegs, unfreeze_mapRegs]

theorem giveUp_mapRegs (n : Nat) : (c.mapRegs φ).giveUp n = (c.giveUp n).mapRegs φ := by
  unfold giveUp freezeMoves
  rw [setNode_mapRegs, find_mapRegs]
  exact foldl_mapRegs (freezeMove_mapRegs _) _ _

theorem apply_mapRegs (s : Step) : (c.mapRegs φ).apply s = (c.apply s).mapRegs φ := by
  cases s with
  | simplify n => exact simplify_mapRegs c n
  | coalesce m => exact coalesce_mapRegs c m
  | freeze n => exact giveUp_mapRegs c n
  | spill choice => exact giveUp_mapRegs c choice.node

end

theorem announce_mapRegs (hnone : φ none = none) (c : Coloring) (s : Step) :
    (c.mapRegs φ).announce s = (c.announce s).map (Event.mapRegs φ) := by
  have hreg : ∀ n, (c.mapRegs φ).live.reg n = φ (c.live.reg n) := Liveness.reg_mapRegs hnone
  cases s with
  | simplify n => simp only [announce, hreg]; rfl
  | coalesce m =>
    simp only [announce, judge_mapRegs, hreg]
    cases c.judge m <;> rfl
  | freeze n => simp only [announce, hreg]; rfl
  | spill choice => simp only [announce, hreg]; rfl

theorem reduce_mapRegs (hnone : φ none = none) (fuel : Nat) (c : Coloring) (log : Array Event) :
    reduce fuel (c.mapRegs φ) (log.map (Event.mapRegs φ)) =
      ((reduce fuel c log).1.mapRegs φ, (reduce fuel c log).2.map (Event.mapRegs φ)) := by
  induction fuel generalizing c log with
  | zero => rfl
  | succ fuel ih =>
    unfold reduce
    rw [show (c.mapRegs φ).next? = c.next? from rfl]
    cases c.next? with
    | none => rfl
    | some s =>
      dsimp only
      have hlog : log.map (Event.mapRegs φ) ++ ((c.announce s).map (Event.mapRegs φ)).toArray =
          (log ++ (c.announce s).toArray).map (Event.mapRegs φ) := by
        rw [Array.map_append]
        cases c.announce s <;> simp
      rw [apply_mapRegs, announce_mapRegs hnone, hlog]
      exact ih _ _

/-! ### Colors -/

section

variable (c)

theorem usedColors_mapRegs (n : Nat) : (c.mapRegs φ).usedColors n = c.usedColors n := by
  unfold usedColors
  simp only [find_mapRegs]
  rfl

theorem assignNode_mapRegs (n : Nat) : (c.mapRegs φ).assignNode n = (c.assignNode n).mapRegs φ := by
  unfold assignNode freeColor?
  rw [usedColors_mapRegs, show (c.mapRegs φ).k = c.k from rfl]
  cases (List.range c.k).find? fun i => !(c.usedColors n).contains i with
  | none => rfl
  | some color => rfl

theorem inheritColor_mapRegs (n : Nat) :
    (c.mapRegs φ).inheritColor n = (c.inheritColor n).mapRegs φ := by
  unfold inheritColor
  rw [find_mapRegs]
  rfl

theorem assign_mapRegs : (c.mapRegs φ).assign = c.assign.mapRegs φ := by
  unfold assign
  dsimp only
  rw [show (c.mapRegs φ).nodes.list .selected = c.nodes.list .selected from rfl,
    foldl_mapRegs assignNode_mapRegs]
  exact foldl_mapRegs inheritColor_mapRegs _ _

end

theorem dump_mapRegs (hnone : φ none = none) (phase : Phase) (c : Coloring) :
    dump phase (c.mapRegs φ) = (dump phase c).map (Event.mapRegs φ) := by
  have hreg : ∀ n, (c.mapRegs φ).live.reg n = φ (c.live.reg n) := Liveness.reg_mapRegs hnone
  unfold dump
  dsimp only
  rw [map_toArray, map_append, size_mapRegs]
  congr 2
  · rw [map_map]
    refine map_congr_left fun n _ => ?_
    rw [hreg, show (c.mapRegs φ).live.reg = φ ∘ c.live.reg from funext hreg, ← map_map]
    rfl
  · rw [map_filterMap]
    refine filterMap_congr fun m _ => ?_
    simp only [hreg, show (c.mapRegs φ).move m = c.move m from rfl,
      show (c.mapRegs φ).live.movePair? m = c.live.movePair? m from rfl]
    cases c.move m <;> cases c.live.movePair? m <;> rfl

/-- The run does the same and tells the same about the other registers. -/
theorem run_mapRegs (hnone : φ none = none) (c : Coloring) :
    (c.mapRegs φ).run = (c.run.1.mapRegs φ, c.run.2.map (Event.mapRegs φ)) := by
  have hbound : ∀ c : Coloring, (c.mapRegs φ).stepBound = c.stepBound := fun c => by
    unfold stepBound
    rw [size_mapRegs]
    rfl
  unfold run
  dsimp only
  rw [build_mapRegs, classify_mapRegs, dump_mapRegs hnone, hbound, reduce_mapRegs hnone]
  dsimp only
  rw [assign_mapRegs, dump_mapRegs hnone, Array.map_append]

/-- A coloring keeps to its registers. -/
theorem mem_of_mem_regs_run {dom : Set (Option Reg)} (hdom : none ∈ dom)
    (hc : ∀ r ∈ c.live.regs, r ∈ dom) : ∀ r ∈ c.run.1.live.regs, r ∈ dom := by
  classical
  -- a map into these registers that leaves them alone leaves the coloring alone, hence also its run
  let ψ : Option Reg → Option Reg := fun r => if r ∈ dom then r else none
  have hsame : c.mapRegs ψ = c := by
    have hregs : c.live.regs.map ψ = c.live.regs :=
      (Array.map_congr_left fun r hr => if_pos (hc r hr)).trans (Array.map_id' _)
    unfold mapRegs Liveness.mapRegs
    rw [hregs]
  have hrun : c.run.1 = c.run.1.mapRegs ψ := by
    have h := run_mapRegs (φ := ψ) (if_pos hdom) c
    rw [hsame] at h
    exact congrArg Prod.fst h
  intro r hr
  rw [hrun] at hr
  obtain ⟨x, -, rfl⟩ := Array.mem_map.mp hr
  by_cases hx : x ∈ dom
  · rwa [show ψ x = x from if_pos hx]
  · rwa [show ψ x = none from if_neg hx]

theorem clashWith?_mapRegs (hnone : φ none = none) (c : Coloring) (i d : Nat) :
    (c.mapRegs φ).clashWith? i d = (c.clashWith? i d).map (Error.mapRegs φ) := by
  have hreg : ∀ n, (c.mapRegs φ).live.reg n = φ (c.live.reg n) := Liveness.reg_mapRegs hnone
  unfold clashWith?
  simp only [hreg]
  rw [Option.map_bind]
  refine congrArg (Option.bind (c.colorOf d)) (funext fun color => ?_)
  rw [Function.comp_apply, Option.map_map]
  rfl

theorem clash?_mapRegs (hnone : φ none = none) (c : Coloring) :
    (c.mapRegs φ).clash? = c.clash?.map (Error.mapRegs φ) := by
  unfold clash?
  rw [map_findSome?]
  refine congrArg (fun f => List.findSome? f (List.range c.live.refs.size)) (funext fun i => ?_)
  rw [Function.comp_apply, map_findSome?]
  exact congrArg (fun f => List.findSome? f (c.live.refsOf i).defs)
    (funext fun d => clashWith?_mapRegs hnone c i d)

theorem groups_mapRegs (hnone : φ none = none) (c : Coloring) :
    (c.mapRegs φ).groups = c.groups.map (List.map φ) := by
  have hreg : ∀ n, (c.mapRegs φ).live.reg n = φ (c.live.reg n) := Liveness.reg_mapRegs hnone
  have hfind : (c.mapRegs φ).find = c.find := funext c.find_mapRegs
  unfold groups
  dsimp only
  rw [map_map, hfind]
  refine map_congr_left fun rep _ => ?_
  rw [hreg, show (c.mapRegs φ).live.reg = φ ∘ c.live.reg from funext hreg, ← map_map]
  rfl

end Coloring

end Codegen
