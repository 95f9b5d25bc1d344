import Codegen.Proofs.Tree.Semantics

/-!
# Shapes of trees

Trees over some registers and labels, with known operators and conditions (`Expr.WellFormed`), and
among them those without statements inside of expressions, which selection takes
(`Expr.Selectable`, `Stmt.Selectable`). The labels that a tree places (`Stmt.places`) and those that
its jumps name (`Stmt.goals`), inside of expressions too.
-/

namespace Codegen

open List

variable (P : Option Reg → Prop) (L : Option Label → Prop)

mutual

/-- Known operators and conditions, registers of which `P` holds and labels of which `L` holds. -/
def Expr.WellFormed : Expr → Prop
  | .missing | .int _ => True
  | .addr l => L l
  | .temp r => P r
  | .bin op l r _ => op.isKnown = true ∧ l.WellFormed ∧ r.WellFormed
  | .mem a => a.WellFormed
  | .call f args link => f.WellFormed ∧ Expr.AllWellFormed args ∧ link.WellFormed
  | .eseq s v => s.WellFormed ∧ v.WellFormed

/-- All of several expressions are well-formed. -/
def Expr.AllWellFormed : List Expr → Prop
  | [] => True
  | e :: rest => e.WellFormed ∧ Expr.AllWellFormed rest

/-- Known operators and conditions, registers of which `P` holds and labels of which `L` holds. -/
def Stmt.WellFormed : Stmt → Prop
  | .missing => True
  | .move d s => d.WellFormed ∧ s.WellFormed
  | .eval e => e.WellFormed
  | .jump d targets => d.WellFormed ∧ ∀ l ∈ targets, L l
  | .cjump c l r t f => c.isKnown = true ∧ l.WellFormed ∧ r.WellFormed ∧ L t ∧ L f
  | .seq list => Stmt.AllWellFormed list
  | .place l => L l

/-- All of several statements are well-formed. -/
def Stmt.AllWellFormed : List Stmt → Prop
  | [] => True
  | s :: rest => s.WellFormed ∧ Stmt.AllWellFormed rest

end

mutual

/-- A well-formed expression without statements inside, and without anything absent but the link of
a call. -/
def Expr.Selectable : Expr → Prop
  | .missing | .eseq .. => False
  | .int _ => True
  | .addr l => L l
  | .temp r => P r
  | .bin op l r _ => op.isKnown = true ∧ l.Selectable ∧ r.Selectable
  | .mem a => a.Selectable
  | .call f args link =>
    f.Selectable ∧ Expr.AllSelectable args ∧ (link.isPresent = true → link.Selectable)

/-- All of several expressions are selectable. -/
def Expr.AllSelectable : List Expr → Prop
  | [] => True
  | e :: rest => e.Selectable ∧ Expr.AllSelectable rest

end

/-- A statement with such expressions that is no sequence. -/
def Stmt.Selectable : Stmt → Prop
  | .move (.temp r) s => P r ∧ s.Selectable P L
  | .move (.mem a) s => a.Selectable P L ∧ s.Selectable P L
  | .eval e => e.Selectable P L
  | .jump d targets => d.Selectable P L ∧ ∀ l ∈ targets, L l
  | .cjump c l r t f => c.isKnown = true ∧ l.Selectable P L ∧ r.Selectable P L ∧ L t ∧ L f
  | .place l => l.isSome = true ∧ L l
  | .missing | .seq _ | .move _ _ => False

mutual

/-- The labels that an expression places, in order. -/
def Expr.places : Expr → List (Option Label)
  | .missing | .int _ | .addr _ | .temp _ => []
  | .bin _ l r _ => l.places ++ r.places
  | .mem a => a.places
  | .call f args link => f.places ++ Expr.placesAll args ++ link.places
  | .eseq s v => s.places ++ v.places

/-- The labels that several expressions place. -/
def Expr.placesAll : List Expr → List (Option Label)
  | [] => []
  | e :: rest => e.places ++ Expr.placesAll rest

/-- The labels that a statement places, in order. -/
def Stmt.places : Stmt → List (Option Label)
  | .missing => []
  | .move d s => d.places ++ s.places
  | .eval e => e.places
  | .jump d _ => d.places
  | .cjump _ l r _ _ => l.places ++ r.places
  | .seq list => Stmt.placesAll list
  | .place l => [l]

/-- The labels that several statements place. -/
def Stmt.placesAll : List Stmt → List (Option Label)
  | [] => []
  | s :: rest => s.places ++ Stmt.placesAll rest

end

mutual

/-- The labels that jumps inside an expression name. -/
def Expr.goals : Expr → List (Option Label)
  | .missing | .int _ | .addr _ | .temp _ => []
  | .bin _ l r _ => l.goals ++ r.goals
  | .mem a => a.goals
  | .call f args link => f.goals ++ Expr.goalsAll args ++ link.goals
  | .eseq s v => s.goals ++ v.goals

/-- The labels that jumps inside several expressions name. -/
def Expr.goalsAll : List Expr → List (Option Label)
  | [] => []
  | e :: rest => e.goals ++ Expr.goalsAll rest

/-- The labels that jumps in a statement name. -/
def Stmt.goals : Stmt → List (Option Label)
  | .missing | .place _ => []
  | .move d s => d.goals ++ s.goals
  | .eval e => e.goals
  | .jump d targets => d.goals ++ targets
  | .cjump _ l r t f => l.goals ++ r.goals ++ [t, f]
  | .seq list => Stmt.goalsAll list

/-- The labels that jumps in several statements name. -/
def Stmt.goalsAll : List Stmt → List (Option Label)
  | [] => []
  | s :: rest => s.goals ++ Stmt.goalsAll rest

end

/-- Where control may go from a statement, except to what follows. -/
def Stmt.dests : Stmt → List (Option Label)
  | .jump _ targets => targets
  | .cjump _ _ _ t _ => [t]
  | .missing | .move .. | .eval _ | .seq _ | .place _ => []

variable {P L} {P' : Option Reg → Prop} {L' : Option Label → Prop}

/-! ### More registers and labels -/

mutual

theorem Expr.WellFormed.mono {e : Expr} (h : e.WellFormed P L) (hP : ∀ r, P r → P' r)
    (hL : ∀ l, L l → L' l) : e.WellFormed P' L' := by
  cases e with
  | missing | int => trivial
  | addr l => exact hL l h
  | temp r => exact hP r h
  | bin op l r pos => exact ⟨h.1, h.2.1.mono hP hL, h.2.2.mono hP hL⟩
  | mem a => exact Expr.WellFormed.mono (e := a) h hP hL
  | call f args link =>
    exact ⟨h.1.mono hP hL, Expr.AllWellFormed.mono h.2.1 hP hL, h.2.2.mono hP hL⟩
  | eseq s v => exact ⟨h.1.mono hP hL, h.2.mono hP hL⟩

theorem Expr.AllWellFormed.mono {es : List Expr} (h : Expr.AllWellFormed P L es)
    (hP : ∀ r, P r → P' r) (hL : ∀ l, L l → L' l) : Expr.AllWellFormed P' L' es := by
  cases es with
  | nil => trivial
  | cons e es => exact ⟨h.1.mono hP hL, Expr.AllWellFormed.mono h.2 hP hL⟩

theorem Stmt.WellFormed.mono {x : Stmt} (h : x.WellFormed P L) (hP : ∀ r, P r → P' r)
    (hL : ∀ l, L l → L' l) : x.WellFormed P' L' := by
  cases x with
  | missing => trivial
  | move d s => exact ⟨h.1.mono hP hL, h.2.mono hP hL⟩
  | eval e => exact Expr.WellFormed.mono (e := e) h hP hL
  | jump d targets => exact ⟨h.1.mono hP hL, fun l hl => hL l (h.2 l hl)⟩
  | cjump c l r t f =>
    exact ⟨h.1, h.2.1.mono hP hL, h.2.2.1.mono hP hL, hL t h.2.2.2.1, hL f h.2.2.2.2⟩
  | seq list => exact Stmt.AllWellFormed.mono h hP hL
  | place l => exact hL l h

theorem Stmt.AllWellFormed.mono {xs : List Stmt} (h : Stmt.AllWellFormed P L xs)
    (hP : ∀ r, P r → P' r) (hL : ∀ l, L l → L' l) : Stmt.AllWellFormed P' L' xs := by
  cases xs with
  | nil => trivial
  | cons x xs => exact ⟨h.1.mono hP hL, Stmt.AllWellFormed.mono h.2 hP hL⟩

end

namespace Expr

theorem allSelectable_iff {es : List Expr} :
    AllSelectable P L es ↔ ∀ e ∈ es, e.Selectable P L := by
  induction es with
  | nil => simp [AllSelectable]
  | cons e es ih => simp [AllSelectable, ih]

mutual

theorem Selectable.mono {e : Expr} (h : e.Selectable P L) (hP : ∀ r, P r → P' r)
    (hL : ∀ l, L l → L' l) : e.Selectable P' L' := by
  cases e with
  | missing | eseq => cases h
  | int => trivial
  | addr l => exact hL l h
  | temp r => exact hP r h
  | bin op l r pos => exact ⟨h.1, h.2.1.mono hP hL, h.2.2.mono hP hL⟩
  | mem a => exact Selectable.mono (e := a) h hP hL
  | call f args link =>
    exact ⟨h.1.mono hP hL, AllSelectable.mono h.2.1 hP hL, fun hl => (h.2.2 hl).mono hP hL⟩

theorem AllSelectable.mono {es : List Expr} (h : AllSelectable P L es) (hP : ∀ r, P r → P' r)
    (hL : ∀ l, L l → L' l) : AllSelectable P' L' es := by
  cases es with
  | nil => trivial
  | cons e es => exact ⟨h.1.mono hP hL, AllSelectable.mono h.2 hP hL⟩

end

end Expr

theorem Stmt.Selectable.mono {x : Stmt} (h : x.Selectable P L) (hP : ∀ r, P r → P' r)
    (hL : ∀ l, L l → L' l) : x.Selectable P' L' := by
  cases x with
  | missing | seq => cases h
  | move d s =>
    cases d with
    | temp r => exact ⟨hP r h.1, h.2.mono hP hL⟩
    | mem a => exact ⟨h.1.mono hP hL, h.2.mono hP hL⟩
    | missing | int | addr | bin | call | eseq => cases h
  | eval e => exact Expr.Selectable.mono (e := e) h hP hL
  | jump d targets => exact ⟨h.1.mono hP hL, fun l hl => hL l (h.2 l hl)⟩
  | cjump c l r t f => exact ⟨h.1, h.2.1.mono hP hL, h.2.2.1.mono hP hL, hL t h.2.2.2.1, hL f h.2.2.2.2⟩
  | place l => exact ⟨h.1, hL l h.2⟩

/-! ### Trees without statements inside -/

namespace Expr

mutual

theorem Selectable.places_eq {e : Expr} (h : e.Selectable P L) : e.places = [] := by
  cases e with
  | missing | eseq => cases h
  | int | addr | temp => rfl
  | bin op l r pos => rw [places, h.2.1.places_eq, h.2.2.places_eq, append_nil]
  | mem a => exact Selectable.places_eq (e := a) h
  | call f args link =>
    have hlink : link.places = [] := by
      cases hp : link.isPresent with
      | true => exact (h.2.2 hp).places_eq
      | false =>
        cases link with
        | missing => rfl
        | int | addr | temp | bin | mem | call | eseq => cases hp
    rw [places, h.1.places_eq, AllSelectable.placesAll_eq h.2.1, hlink]
    rfl

theorem AllSelectable.placesAll_eq {es : List Expr} (h : AllSelectable P L es) :
    placesAll es = [] := by
  cases es with
  | nil => rfl
  | cons e es => rw [placesAll, h.1.places_eq, AllSelectable.placesAll_eq h.2, append_nil]

end

mutual

theorem Selectable.goals_eq {e : Expr} (h : e.Selectable P L) : e.goals = [] := by
  cases e with
  | missing | eseq => cases h
  | int | addr | temp => rfl
  | bin op l r pos => rw [goals, h.2.1.goals_eq, h.2.2.goals_eq, append_nil]
  | mem a => exact Selectable.goals_eq (e := a) h
  | call f args link =>
    have hlink : link.goals = [] := by
      cases hp : link.isPresent with
      | true => exact (h.2.2 hp).goals_eq
      | false =>
        cases link with
        | missing => rfl
        | int | addr | temp | bin | mem | call | eseq => cases hp
    rw [goals, h.1.goals_eq, AllSelectable.goalsAll_eq h.2.1, hlink]
    rfl

theorem AllSelectable.goalsAll_eq {es : List Expr} (h : AllSelectable P L es) :
    goalsAll es = [] := by
  cases es with
  | nil => rfl
  | cons e es => rw [goalsAll, h.1.goals_eq, AllSelectable.goalsAll_eq h.2, append_nil]

end

end Expr

theorem Stmt.placesAll_append (xs ys : List Stmt) :
    Stmt.placesAll (xs ++ ys) = Stmt.placesAll xs ++ Stmt.placesAll ys := by
  induction xs with
  | nil => rfl
  | cons x xs ih => rw [cons_append, Stmt.placesAll, Stmt.placesAll, ih, append_assoc]

theorem Stmt.goalsAll_append (xs ys : List Stmt) :
    Stmt.goalsAll (xs ++ ys) = Stmt.goalsAll xs ++ Stmt.goalsAll ys := by
  induction xs with
  | nil => rfl
  | cons x xs ih => rw [cons_append, Stmt.goalsAll, Stmt.goalsAll, ih, append_assoc]

theorem Stmt.mem_goalsAll {xs : List Stmt} {x : Stmt} {l : Option Label} (hx : x ∈ xs)
    (hl : l ∈ x.goals) : l ∈ Stmt.goalsAll xs := by
  obtain ⟨before, after, rfl⟩ := append_of_mem hx
  rw [Stmt.goalsAll_append, Stmt.goalsAll]
  exact mem_append_right _ (mem_append_left _ hl)

end Codegen
