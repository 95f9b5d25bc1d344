import Codegen.Block.Basic
import Codegen.Proofs.Machine
import Codegen.Proofs.Tree.Semantics

/-!
# Execution of statement lists and of blocks

A list of statements runs from one statement to the next; jumps go to the place of a label. What is
seen of a run is the statements that are neither jumps nor places, each with the stores around it
(`Visit`), and how it ends (`Ending`). Blocks run in the same way, from the label of one to the label
of the next, whatever order they are in.

A jump to a known label goes there. Any other jump goes to the label that is found at its address,
if that is one of its targets.
-/

namespace Codegen.Semantics

open List

variable {Mem : Type*}

/-- A statement that was executed, with the stores before and behind it. -/
structure Visit (Mem : Type*) where
  stmt : Stmt
  before : Store Mem
  behind : Store Mem

/-- How a run ends. -/
inductive Ending (Mem : Type*)
  /-- It comes to the end. -/
  | done (σ : Store Mem)
  /-- It leaves for a label that is not placed. -/
  | leaves (l : Option Label) (σ : Store Mem)
  /-- It jumps to an address that is none of the targets. -/
  | astray (σ : Store Mem)

/-- What trees mean, and the label found at an address. -/
structure World (Mem : Type*) extends Interp Mem where
  labelAt : Int64 → Option Label

variable (W : World Mem)

/-- The label that a jump goes to, and the store behind it. -/
def target : Exit → Store Mem → Option (Option Label) × Store Mem
  | .jump (.addr l) _, σ => (some l, σ)
  | .jump d targets, σ =>
    let x := eval W.toInterp d σ
    (if W.labelAt x.1 ∈ targets then some (W.labelAt x.1) else none, x.2)
  | .branch c l r t f, σ =>
    let x := eval W.toInterp l σ
    let y := eval W.toInterp r x.2
    (some (if W.holds c x.1 y.1 then t else f), y.2)

/-- The labels that a jump may go to. -/
def Exit.labels : Exit → List (Option Label)
  | .jump (.addr l) targets => l :: targets
  | .jump _ targets => targets
  | .branch _ _ _ t f => [t, f]

theorem mem_labels_of_target {W : World Mem} {e : Exit} {σ τ : Store Mem} {l : Option Label}
    (h : target W e σ = (some l, τ)) : l ∈ Exit.labels e := by
  unfold target at h
  split at h
  · cases h
    exact mem_cons_self
  · rename_i d targets hd
    have hlabels : Exit.labels (.jump d targets) = targets := by
      unfold Exit.labels
      split
      · rename_i heq
        cases heq
        exact absurd rfl (hd _)
      · rename_i heq
        cases heq
        rfl
      · rename_i heq
        cases heq
    rw [hlabels]
    dsimp only at h
    split at h
    · rename_i hmem
      cases h
      exact hmem
    · cases h
  · cases h
    dsimp only [Exit.labels]
    split
    · exact mem_cons_self
    · exact mem_cons_of_mem _ mem_cons_self

/-- The rest of a list of statements that is still to run, and the store. -/
structure Config (Mem : Type*) where
  rest : List Stmt
  store : Store Mem

/-- What a run does next. -/
abbrev Proceeds (C : Type*) (Mem : Type*) := Move C (Visit Mem) (Ending Mem)

/-- Go to the place of a label. -/
def goTo (list : List Stmt) (l : Option Label) (σ : Store Mem) : Proceeds (Config Mem) Mem :=
  match (entries list).find? (·.1 == l) with
  | some p => .go none ⟨p.2, σ⟩
  | none => .stop (.leaves l σ)

/-- Go where a jump leads. -/
def depart (list : List Stmt) : Option (Option Label) × Store Mem → Proceeds (Config Mem) Mem
  | (some l, σ) => goTo list l σ
  | (none, σ) => .stop (.astray σ)

/-- One step of a list of statements. -/
def listStep (list : List Stmt) (c : Config Mem) : Proceeds (Config Mem) Mem :=
  match c.rest with
  | [] => .stop (.done c.store)
  | .place _ :: rest => .go none ⟨rest, c.store⟩
  | x :: rest =>
    match x.exit? with
    | some e => depart list (target W e c.store)
    | none =>
      let σ := (exec W.toInterp x c.store).2
      .go (some ⟨x, c.store, σ⟩) ⟨rest, σ⟩

/-- The rest of a block that is still to run, and the store. -/
structure BlockConfig (Mem : Type*) where
  body : List Stmt
  exit : Exit
  store : Store Mem

/-- The start of a block. -/
def BlockConfig.start (b : Block) (σ : Store Mem) : BlockConfig Mem := ⟨b.body, b.exit, σ⟩

/-- Go to the block with a label; `exit` is the label at the end. -/
def enter (blocks : List Block) (exit : Option Label) :
    Option (Option Label) × Store Mem → Proceeds (BlockConfig Mem) Mem
  | (some l, σ) =>
    if l = exit then .stop (.done σ)
    else
      match blocks.find? (·.label == l) with
      | some b => .go none (.start b σ)
      | none => .stop (.leaves l σ)
  | (none, σ) => .stop (.astray σ)

/-- One step of blocks. -/
def blockStep (blocks : List Block) (exit : Option Label) (c : BlockConfig Mem) :
    Proceeds (BlockConfig Mem) Mem :=
  match c.body with
  | [] => enter blocks exit (target W c.exit c.store)
  | x :: body =>
    let σ := (exec W.toInterp x c.store).2
    .go (some ⟨x, c.store, σ⟩) ⟨body, c.exit, σ⟩

variable {W}

/-- A statement that is neither a jump nor a place. -/
def isInner : Stmt → Bool
  | .jump .. | .cjump .. | .place _ => false
  | _ => true

theorem listStep_of_isInner {list rest : List Stmt} {x : Stmt} {σ : Store Mem}
    (hx : isInner x = true) :
    listStep W list ⟨x :: rest, σ⟩ =
      .go (some ⟨x, σ, (exec W.toInterp x σ).2⟩) ⟨rest, (exec W.toInterp x σ).2⟩ := by
  cases x with
  | jump | cjump | place => cases hx
  | missing | move | eval | seq => rfl

theorem listStep_of_exit? {list rest : List Stmt} {x : Stmt} {e : Exit} {σ : Store Mem}
    (hx : x.exit? = some e) :
    listStep W list ⟨x :: rest, σ⟩ = depart list (target W e σ) := by
  cases x with
  | jump | cjump => cases hx; rfl
  | missing | move | eval | seq | place => cases hx

/-! ### Finding labels -/

theorem find?_of_nodup {α β : Type*} [BEq β] [LawfulBEq β] {key : α → β} {xs : List α} {x : α}
    (hnodup : (xs.map key).Nodup) (hx : x ∈ xs) : xs.find? (key · == key x) = some x := by
  induction xs with
  | nil => cases hx
  | cons y ys ih =>
    rw [map_cons, nodup_cons] at hnodup
    rw [find?_cons]
    rcases mem_cons.mp hx with rfl | hx
    · rw [beq_self_eq_true]
    · have hne : (key y == key x) = false :=
        beq_eq_false_iff_ne.mpr fun h => hnodup.1 (mem_map.mpr ⟨x, hx, h.symm⟩)
      rw [hne]
      exact ih hnodup.2 hx

/-- The labels that are placed. -/
def placed (list : List Stmt) : List (Option Label) := (entries list).map (·.1)

theorem goTo_of_mem {list rest : List Stmt} {l : Option Label} {σ : Store Mem}
    (honce : (placed list).Nodup) (h : (l, rest) ∈ entries list) :
    goTo list l σ = .go none ⟨rest, σ⟩ := by
  rw [goTo, find?_of_nodup honce h]

theorem goTo_of_not_mem {list : List Stmt} {l : Option Label} {σ : Store Mem}
    (h : l ∉ placed list) : goTo list l σ = .stop (.leaves l σ) := by
  have hfind : (entries list).find? (·.1 == l) = none :=
    find?_eq_none.mpr fun p hp hpl => h (mem_map.mpr ⟨p, hp, beq_iff_eq.mp hpl⟩)
  rw [goTo, hfind]

variable {blocks : List Block} {exit l : Option Label} {σ : Store Mem}

theorem enter_exit : enter blocks exit (some exit, σ) = .stop (.done σ) := if_pos rfl

theorem enter_of_mem {b : Block} (honce : (blocks.map (·.label)).Nodup) (hb : b ∈ blocks)
    (hexit : b.label ≠ exit) : enter blocks exit (some b.label, σ) = .go none (.start b σ) := by
  rw [enter, if_neg hexit, find?_of_nodup honce hb]

theorem enter_of_not_mem (h : l ∉ blocks.map (·.label)) (hexit : l ≠ exit) :
    enter blocks exit (some l, σ) = .stop (.leaves l σ) := by
  have hfind : blocks.find? (·.label == l) = none :=
    find?_eq_none.mpr fun b hb hbl => h (mem_map.mpr ⟨b, hb, beq_iff_eq.mp hbl⟩)
  rw [enter, if_neg hexit, hfind]

end Codegen.Semantics
