import Codegen.Proofs.Liveness

/-!
# Execution of code

Code runs on values `V` and a memory with addresses `A`. What an instruction does is given by an
arbitrary meaning: the values that it writes, the new memory and the way that control takes are a
function of the values that it reads and the memory. Control goes on behind the instruction or to
one of its destinations, just as the flow graph says (`mem_succOf_iff_goto`), and leaves the code
where there is no such place.
-/

namespace Codegen

open List

namespace Execution

/-- The way that control takes: on behind the instruction, or to a destination by its number. -/
inductive Way
  | next
  | dest (n : Nat)
deriving DecidableEq, Repr

/-- What an instruction does. -/
structure Effect (V A : Type*) where
  /-- The value of each register written, by its place among them. -/
  out : Nat → V
  mem : A → V
  way : Way

/-- What an instruction does, given the values that it reads and the memory. -/
abbrev Meaning (V A : Type*) := List V → (A → V) → Effect V A

/-- Where control is, if it has not left the code, and the contents of registers and memory. -/
structure Config (V A : Type*) where
  pc : Option Nat
  regs : Option Reg → V
  mem : A → V

/-- An instruction that was executed: its place, the values read and written, and the memory before
it. -/
structure Visit (V A : Type*) where
  place : Nat
  ins : List V
  outs : List V
  mem : A → V

/-- Write values to registers one after the other. -/
def assign {V : Type*} : List (Option Reg) → (Nat → V) → (Option Reg → V) → Option Reg → V
  | [], _, regs => regs
  | w :: ws, out, regs => assign ws (fun n => out (n + 1)) (Function.update regs w (out 0))

end Execution

namespace Code

open Execution

variable {V A : Type*}

/-- The place, if it is inside the code. -/
def inside (code : Code) (i : Nat) : Option Nat := if i < code.length then some i else none

/-- Where control goes from an instruction. -/
def goto (code : Code) (i : Nat) (x : Instr) : Way → Option Nat
  | .next => if x.fallsThrough then code.inside (i + 1) else none
  | .dest n =>
    match x.dests[n]? with
    | some (some l) => code.findIdx? fun y => y.label == some l
    | _ => none

/-- Execute one instruction. -/
def exec (code : Code) (M : Nat → Meaning V A) (i : Nat) (x : Instr) (c : Config V A) :
    Config V A :=
  { pc := code.goto i x (M i (x.reads.map c.regs) c.mem).way
    regs := assign x.writes (M i (x.reads.map c.regs) c.mem).out c.regs
    mem := (M i (x.reads.map c.regs) c.mem).mem }

/-- The visit of one instruction. -/
def visit (M : Nat → Meaning V A) (i : Nat) (x : Instr) (c : Config V A) : Visit V A :=
  { place := i
    ins := x.reads.map c.regs
    outs := (List.range x.writes.length).map (M i (x.reads.map c.regs) c.mem).out
    mem := c.mem }

/-- One step; nothing happens once control has left the code. -/
def step (code : Code) (M : Nat → Meaning V A) (c : Config V A) : Config V A × List (Visit V A) :=
  match c.pc with
  | none => (c, [])
  | some i =>
    match code[i]? with
    | none => ({ c with pc := none }, [])
    | some x => (code.exec M i x c, [visit M i x c])

/-- The configuration after a number of steps, and what was executed. -/
def run (code : Code) (M : Nat → Meaning V A) : Nat → Config V A → Config V A × List (Visit V A)
  | 0, c => (c, [])
  | n + 1, c =>
    let (c, visits) := code.run M n c
    let (c, visits') := code.step M c
    (c, visits ++ visits')

end Code

namespace Execution

variable {V A : Type*} {code : Code} {M : Nat → Meaning V A} {c : Config V A} {i j : Nat}
  {x : Instr} {w r : Option Reg} {ws : List (Option Reg)}

/-! ### Runs -/

theorem run_succ (n : Nat) : code.run M (n + 1) c =
    ((code.step M (code.run M n c).1).1,
      (code.run M n c).2 ++ (code.step M (code.run M n c).1).2) := rfl

theorem run_add (m n : Nat) : code.run M (m + n) c =
    ((code.run M n (code.run M m c).1).1,
      (code.run M m c).2 ++ (code.run M n (code.run M m c).1).2) := by
  induction n with
  | zero => simp [Code.run]
  | succ n ih => rw [← Nat.add_assoc, run_succ, ih, run_succ, append_assoc]

theorem run_one : code.run M 1 c = code.step M c := by
  rw [run_succ]
  rfl

theorem step_of_getElem? (hpc : c.pc = some i) (hx : code[i]? = some x) :
    code.step M c = (code.exec M i x c, [Code.visit M i x c]) := by
  simp only [Code.step, hpc, hx]

theorem step_of_none (hpc : c.pc = none) : code.step M c = (c, []) := by
  simp only [Code.step, hpc]

theorem step_of_outside (hpc : c.pc = some i) (hx : code[i]? = none) :
    code.step M c = ({ c with pc := none }, []) := by
  simp only [Code.step, hpc, hx]

/-! ### Writing to registers -/

theorem assign_of_not_mem (out : Nat → V) {regs : Option Reg → V} (h : r ∉ ws) :
    assign ws out regs r = regs r := by
  induction ws generalizing out regs with
  | nil => rfl
  | cons w ws ih =>
    rw [mem_cons, not_or] at h
    rw [assign, ih _ h.2, Function.update_of_ne h.1]

theorem assign_of_mem (out : Nat → V) (regs : Option Reg → V) (h : r ∈ ws) :
    ∃ n, ws[n]? = some r ∧ assign ws out regs r = out n := by
  induction ws generalizing out regs with
  | nil => cases h
  | cons w ws ih =>
    rw [assign]
    by_cases hr : r ∈ ws
    · obtain ⟨n, hn, heq⟩ := ih (fun n => out (n + 1)) (Function.update regs w (out 0)) hr
      exact ⟨n + 1, hn, heq⟩
    · have hrw : r = w := (mem_cons.mp h).resolve_right hr
      subst hrw
      refine ⟨0, rfl, ?_⟩
      rw [assign_of_not_mem _ hr, Function.update_self]

theorem assign_map {ρ : Option Reg → Option Reg} (out : Nat → V) {regs regs' : Option Reg → V}
    (hinj : ∀ w ∈ ws, ρ w = ρ r → w = r) (hregs : r ∉ ws → regs' (ρ r) = regs r) :
    assign (ws.map ρ) out regs' (ρ r) = assign ws out regs r := by
  induction ws generalizing out regs regs' with
  | nil => exact hregs not_mem_nil
  | cons w ws ih =>
    rw [map_cons, assign, assign]
    refine ih _ (fun w' hw' => hinj w' (mem_cons_of_mem _ hw')) fun hr => ?_
    by_cases hw : w = r
    · subst hw
      rw [Function.update_self, Function.update_self]
    · have hρ : ρ r ≠ ρ w := fun h => hw (hinj w mem_cons_self h.symm)
      rw [Function.update_of_ne hρ, Function.update_of_ne (Ne.symm hw)]
      refine hregs fun hmem => ?_
      rcases mem_cons.mp hmem with h | h
      · exact hw h.symm
      · exact hr h

/-! ### Where control goes -/

theorem inside_eq_some : code.inside i = some j ↔ j = i ∧ i < code.length := by
  unfold Code.inside
  split
  · simp [*, eq_comm]
  · simp [*]

/-- The place of a label is the only one. -/
theorem placesAt_unique (h : code.labels.Nodup) {l : Label} (hi : code.PlacesAt l i)
    (hj : code.PlacesAt l j) : i = j := by
  obtain ⟨y, hy, hyl⟩ := hi
  obtain ⟨z, hz, hzl⟩ := hj
  obtain ⟨hi, rfl⟩ := List.getElem?_eq_some_iff.mp hy
  obtain ⟨hj, rfl⟩ := List.getElem?_eq_some_iff.mp hz
  have hpair := pairwise_iff_getElem.mp (pairwise_filterMap.mp h)
  rcases Nat.lt_trichotomy i j with hlt | heq | hlt
  · exact absurd rfl (hpair i j hi hj hlt l hyl l hzl)
  · exact heq
  · exact absurd rfl (hpair j i hj hi hlt l hzl l hyl)

theorem findIdx?_label (h : code.labels.Nodup) {l : Label} :
    (code.findIdx? fun y => y.label == some l) = some j ↔ code.PlacesAt l j := by
  have hsome : ∀ {j}, (code.findIdx? fun y => y.label == some l) = some j → code.PlacesAt l j := by
    intro j hj
    obtain ⟨hlt, hlab, -⟩ := findIdx?_eq_some_iff_getElem.mp hj
    exact ⟨code[j], getElem?_eq_getElem hlt, by simpa using hlab⟩
  refine ⟨hsome, fun hplace => ?_⟩
  cases hfind : code.findIdx? fun y => y.label == some l with
  | none =>
    obtain ⟨y, hy, hyl⟩ := hplace
    have := findIdx?_eq_none_iff.mp hfind y (mem_of_getElem? hy)
    simp [hyl] at this
  | some j' => rw [placesAt_unique h (hsome hfind) hplace]

theorem follows_of_goto (h : code.labels.Nodup) {way : Way} (hx : code[i]? = some x)
    (hg : code.goto i x way = some j) : code.Follows i j := by
  refine ⟨x, hx, ?_⟩
  cases way with
  | next =>
    simp only [Code.goto] at hg
    split at hg
    · obtain ⟨rfl, hlt⟩ := inside_eq_some.mp hg
      exact Or.inl ⟨by assumption, rfl, hlt⟩
    · cases hg
  | dest n =>
    simp only [Code.goto] at hg
    split at hg
    · rename_i l hl
      exact Or.inr ⟨l, mem_of_getElem? hl, (findIdx?_label h).mp hg⟩
    · cases hg

/-- The ways that control can take are those of the flow graph. -/
theorem mem_succOf_iff_goto {g : Flow} (hg : Flow.ofCode code = .ok g) (hx : code[i]? = some x) :
    j ∈ g.succOf i ↔ ∃ way, code.goto i x way = some j := by
  have hnd := (Flow.ofCode_isOk_iff.mp ⟨g, hg⟩).nodup
  rw [Flow.mem_succOf hg]
  constructor
  · rintro ⟨y, hy, hcase⟩
    rw [hx] at hy
    cases hy
    rcases hcase with ⟨hfall, rfl, hlt⟩ | ⟨l, hl, hplace⟩
    · exact ⟨.next, by rw [Code.goto, if_pos hfall, inside_eq_some]; exact ⟨rfl, hlt⟩⟩
    · obtain ⟨n, hn⟩ := mem_iff_getElem?.mp hl
      refine ⟨.dest n, ?_⟩
      simp only [Code.goto, hn]
      exact (findIdx?_label hnd).mpr hplace
  · rintro ⟨way, hway⟩
    exact follows_of_goto hnd hx hway

end Execution

end Codegen
