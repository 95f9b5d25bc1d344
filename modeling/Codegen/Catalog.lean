import Codegen.Template.Binding

/-!
# Catalogs

A catalog describes a machine to the code generator: its registers by name, which of them may be
allocated and what calls do with them, and the templates for its instructions. Of the templates that
match a node the one that covers most is taken, and among those the one that was added first.
-/

namespace Codegen

/-- The constants that fit into an instruction. -/
structure ImmRange where
  lo : Int64
  hi : Int64
deriving DecidableEq, Repr, Inhabited

/-- Whether a constant is in the range. -/
def ImmRange.contains (r : ImmRange) (v : Int64) : Bool := r.lo ≤ v && v ≤ r.hi

/-- The description of a machine. -/
structure Catalog where
  name : String
  /-- The registers that are known by name. -/
  machine : List Reg
  /-- The registers that may be allocated; the place in this list is the color. -/
  regs : List (Option Reg) := []
  params : List (Option Reg) := []
  callerSave : List (Option Reg) := []
  calleeSave : List (Option Reg) := []
  result : Option Reg := none
  /-- The range of the constants that templates match unless they are wide; without one all. -/
  imm : Option ImmRange := none
  /-- Which constants of that range an instruction can hold. -/
  encodes : Int64 → Bool := fun _ => true
  /-- The templates in the order in which they were added. -/
  templates : List Template := []
deriving Inhabited

namespace Catalog

/-- The machine register with the given name; of several the last one. -/
def reg? (c : Catalog) (name : String) : Option Reg :=
  c.machine.reverse.find? (·.name == name)

/-- The place of a register among those that may be allocated. -/
def color? (c : Catalog) (r : Option Reg) : Option Nat := c.regs.idxOf? r

/-- Whether the register is the one known by its name. -/
def isMachine (c : Catalog) (r : Reg) : Bool := c.reg? r.name == some r

/-- Whether a constant fits into an instruction. -/
def fits (c : Catalog) (v : Int64) : Bool := c.imm.all (·.contains v) && c.encodes v

/-- The constants that a template takes. -/
def accepts (c : Catalog) (t : Template) (v : Int64) : Bool := t.wide || c.fits v

/-- The number of templates. -/
def size (c : Catalog) : Nat := c.templates.length

/-- Make a template and add it behind those that are there. -/
def add (pattern : Node) (skeletons : List Skeleton) (wide : Bool) : Pass Catalog Template := do
  let t ← Pass.ofExcept (Template.make (← get).reg? pattern skeletons wide)
  modify fun c => { c with templates := c.templates ++ [t] }
  return t

/-- The templates of a class, in the order in which they were added. -/
def templatesOf (c : Catalog) (h : Head) : List Template :=
  c.templates.filter fun t => t.pattern.head = h

/-- The templates to try on a node; there is no list for an unknown operator or condition. -/
def templatesFor? (c : Catalog) (x : Node) : Option (List Template) :=
  if x.head.isKnown then some (c.templatesOf x.head) else none

/-- The templates that match a node, with what they bind. -/
def matching (c : Catalog) (x : Node) : List (Template × Binding) :=
  (c.templatesOf x.head).filterMap fun t => (t.pattern.bind (c.accepts t) x).map fun b => (t, b)

/-- The match that covers more; of two that cover the same, the first. -/
def better (best : Option (Template × Binding)) (m : Template × Binding) :
    Option (Template × Binding) :=
  match best with
  | none => some m
  | some b => if b.2.covered < m.2.covered then some m else some b

/-- The match that covers the most nodes, the first of them if there are several. -/
def find? (c : Catalog) (x : Node) : Option (Template × Binding) :=
  (c.matching x).foldl better none

theorem mem_of_foldl_better {ms : List (Template × Binding)} {best : Option (Template × Binding)}
    {m : Template × Binding} (h : ms.foldl better best = some m) : m ∈ ms ∨ best = some m := by
  induction ms generalizing best with
  | nil => exact Or.inr h
  | cons a rest ih =>
    rcases ih h with hm | hm
    · exact Or.inl (List.mem_cons_of_mem _ hm)
    · unfold better at hm
      split at hm
      · cases hm
        exact Or.inl List.mem_cons_self
      · split at hm
        · cases hm
          exact Or.inl List.mem_cons_self
        · exact Or.inr hm

/-- The match that is found is one of those that there are. -/
theorem mem_matching_of_find? {c : Catalog} {x : Node} {m : Template × Binding}
    (h : c.find? x = some m) : m ∈ c.matching x := by
  rcases mem_of_foldl_better h with hm | hm
  · exact hm
  · cases hm

/-- What a match found for an expression leaves over is smaller than the expression. -/
theorem glueSize_find?_lt {c : Catalog} {x : Expr} {t : Template} {b : Binding}
    (h : c.find? (.expr x) = some (t, b)) : Leaf.glueSize b.leaves < x.size := by
  have hm := mem_matching_of_find? h
  simp only [matching, templatesOf, List.mem_filterMap, List.mem_filter, decide_eq_true_eq,
    Option.map_eq_some_iff] at hm
  obtain ⟨t', ⟨-, hh⟩, b', hb, heq⟩ := hm
  cases heq
  cases hp : t.pattern with
  | stmt s => rw [hp] at hb; simp [Node.bind] at hb
  | expr p =>
    rw [hp] at hb hh
    exact Expr.glueSize_bind_lt hh hb

end Catalog

end Codegen
