import Codegen.Template.Basic

/-!
# Matching

Matching a pattern against a node binds the leaves of the pattern, in their order, to what stands in
their places, and counts the nodes that the pattern covers. A register of the pattern that meets a
larger expression covers nothing: that expression is left over as glue, to be computed into a
register before.
-/

namespace Codegen

/-- What a leaf of a pattern is bound to. -/
inductive Leaf
  | temp (r : Option Reg)
  | int (value : Int64)
  | addr (label : Option Label)
  /-- An expression that still has to be computed. -/
  | glue (e : Expr)

/-- The nodes of the expressions that still have to be computed. -/
def Leaf.glueSize : List Leaf → Nat
  | [] => 0
  | .glue e :: rest => e.size + Leaf.glueSize rest
  | _ :: rest => Leaf.glueSize rest

@[simp] theorem Leaf.glueSize_append (a b : List Leaf) :
    Leaf.glueSize (a ++ b) = Leaf.glueSize a + Leaf.glueSize b := by
  induction a with
  | nil => simp [Leaf.glueSize]
  | cons l rest ih => cases l <;> simp [Leaf.glueSize, ih, Nat.add_assoc]

theorem Leaf.glueSize_le_cons (l : Leaf) (rest : List Leaf) :
    Leaf.glueSize rest ≤ Leaf.glueSize (l :: rest) := by
  cases l <;> simp [Leaf.glueSize]

/-- The outcome of a match. -/
structure Binding where
  /-- The number of nodes covered. -/
  covered : Nat
  /-- What the leaves of the pattern are bound to, in their order. -/
  leaves : List Leaf
deriving Inhabited

namespace Binding

/-- One covered node without leaves of its own above what is bound already. -/
def above (b : Binding) : Binding := { b with covered := b.covered + 1 }

/-- Both bindings, the leaves of the first one first. -/
def also (a b : Binding) : Binding := ⟨a.covered + b.covered, a.leaves ++ b.leaves⟩

end Binding

/-- Match an expression pattern; `fits` says which constants are acceptable. -/
def Expr.bind (fits : Int64 → Bool) (p x : Expr) : Option Binding :=
  match p, x with
  | .temp _, .temp r => some ⟨1, [.temp r]⟩
  | .temp _, x => some ⟨0, [.glue x]⟩
  | .int c, .int v => if (c == 0 || c == v) && fits v then some ⟨1, [.int v]⟩ else none
  | .addr _, .addr l => some ⟨1, [.addr l]⟩
  | .bin op l r _, .bin op' l' r' _ =>
    if op = op' then do
      let a ← l.bind fits l'
      let b ← r.bind fits r'
      return (a.also b).above
    else none
  | .mem a, .mem a' => (a.bind fits a').map Binding.above
  | .call f _ _, .call f' _ _ => (f.bind fits f').map Binding.above
  | _, _ => none

/-- Match a statement pattern. A register as the destination of a move matches only a register. -/
def Stmt.bind (fits : Int64 → Bool) (p x : Stmt) : Option Binding :=
  match p, x with
  | .move (.temp _) s, .move (.temp r) s' =>
    (s.bind fits s').map fun b => (Binding.also ⟨1, [.temp r]⟩ b).above
  | .move (.temp _) _, .move _ _ => none
  | .move d s, .move d' s' => do
    let a ← d.bind fits d'
    let b ← s.bind fits s'
    return (a.also b).above
  | .jump d _, .jump d' _ => (d.bind fits d').map Binding.above
  | .cjump c l r _ _, .cjump c' l' r' _ _ =>
    if c = c' then do
      let a ← l.bind fits l'
      let b ← r.bind fits r'
      return (a.also b).above
    else none
  | .place _, .place _ => some ⟨1, []⟩
  | _, _ => none

/-- Match a pattern against a node. -/
def Node.bind (fits : Int64 → Bool) (p x : Node) : Option Binding :=
  match p, x with
  | .expr p, .expr x => p.bind fits x
  | .stmt p, .stmt x => p.bind fits x
  | _, _ => none

/-! ### What is left over is smaller -/

@[simp] theorem Binding.leaves_above (b : Binding) : b.above.leaves = b.leaves := rfl

@[simp] theorem Binding.leaves_also (a b : Binding) :
    (a.also b).leaves = a.leaves ++ b.leaves := rfl

/-- The expressions left over by a match are together no larger than what is matched. -/
theorem Expr.glueSize_bind_le {fits : Int64 → Bool} {p x : Expr} {b : Binding}
    (h : p.bind fits x = some b) : Leaf.glueSize b.leaves ≤ x.size := by
  fun_induction Expr.bind fits p x generalizing b with
  | case1 | case3 | case5 => cases h; simp [Leaf.glueSize]
  | case2 => cases h; simp [Leaf.glueSize]
  | case4 | case7 | case10 => cases h
  | case6 l r _ _ l' r' _ ihl ihr =>
    simp only [Option.bind_eq_bind, Option.pure_def, Option.bind_eq_some_iff] at h
    obtain ⟨a, ha, c, hc, h⟩ := h
    cases h
    have := ihl ha
    have := ihr hc
    simp [Expr.size]
    omega
  | case8 a a' ih =>
    obtain ⟨c, hc, rfl⟩ := Option.map_eq_some_iff.mp h
    have := ih hc
    simp [Expr.size]
    omega
  | case9 f _ _ f' _ _ ih =>
    obtain ⟨c, hc, rfl⟩ := Option.map_eq_some_iff.mp h
    have := ih hc
    simp [Expr.size]
    omega

/-- A match of a pattern of the node's own class leaves over less than the node. -/
theorem Expr.glueSize_bind_lt {fits : Int64 → Bool} {p x : Expr} {b : Binding}
    (hh : (Node.expr p).head = (Node.expr x).head) (h : p.bind fits x = some b) :
    Leaf.glueSize b.leaves < x.size := by
  cases p with
  | missing => simp [Expr.bind] at h
  | eseq s v => simp [Expr.bind] at h
  | int c =>
    cases x <;> simp [Node.head] at hh
    simp only [Expr.bind, Option.ite_none_right_eq_some, Option.some.injEq] at h
    obtain ⟨-, rfl⟩ := h
    simp [Leaf.glueSize, Expr.size]
  | addr l =>
    cases x <;> simp [Node.head] at hh
    rw [Expr.bind] at h
    cases h
    simp [Leaf.glueSize, Expr.size]
  | temp r =>
    cases x <;> simp [Node.head] at hh
    rw [Expr.bind] at h
    cases h
    simp [Leaf.glueSize, Expr.size]
  | bin op l r pos =>
    cases x <;> simp [Node.head] at hh
    subst hh
    simp only [Expr.bind, if_true, Option.bind_eq_bind, Option.pure_def,
      Option.bind_eq_some_iff] at h
    obtain ⟨a, ha, c, hc, h⟩ := h
    cases h
    have := Expr.glueSize_bind_le ha
    have := Expr.glueSize_bind_le hc
    simp [Expr.size]
    omega
  | mem a =>
    cases x <;> simp [Node.head] at hh
    rw [Expr.bind] at h
    obtain ⟨c, hc, rfl⟩ := Option.map_eq_some_iff.mp h
    have := Expr.glueSize_bind_le hc
    simp [Expr.size]
    omega
  | call f args link =>
    cases x <;> simp [Node.head] at hh
    rw [Expr.bind] at h
    obtain ⟨c, hc, rfl⟩ := Option.map_eq_some_iff.mp h
    have := Expr.glueSize_bind_le hc
    simp [Expr.size]
    omega

end Codegen
