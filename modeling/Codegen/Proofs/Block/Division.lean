import Codegen.Proofs.Block.Cut

/-!
# The blocks of a list

A list of statements falls into blocks, one after the other (`Divides`). Cutting finds them
(`ofStmt_blocksOf`), unless a statement is absent.
-/

namespace Codegen.Semantics

open Block Pass List

variable {s : Supply} {xs rest : List Stmt} {exit : Option Label} {blocks : List Block} {e : Exit}
  {fresh fresh' : Label → Prop}

/-! ### Blocks of a list -/

/-- How a block begins: with the place of its label, or with nothing, and then the label is fresh. -/
inductive Opens (fresh : Label → Prop) : Option Label → List Stmt → Prop
  | place (l : Option Label) : Opens fresh l [.place l]
  | made {m : Label} (h : fresh m) : Opens fresh (some m) []

/-- How a block ends in front of the rest: with a jump, or with nothing where something is placed or the
list is at its end, and then that is where it leads. -/
inductive Closes (exit : Option Label) : Exit → List Stmt → List Stmt → Prop
  | jump {x : Stmt} {e : Exit} (h : x.exit? = some e) (rest : List Stmt) : Closes exit e [x] rest
  | place (l : Option Label) (rest : List Stmt) : Closes exit (.goto l) [] (.place l :: rest)
  | finish : Closes exit (.goto exit) [] []

/-- A list of statements that is made of blocks, one after the other. -/
inductive Divides (fresh : Label → Prop) (exit : Option Label) : List Stmt → List Block → Prop
  | done : Divides fresh exit [] []
  | block {b : Block} {front back rest : List Stmt} {blocks : List Block}
      (hopen : Opens fresh b.label front) (hinner : ∀ x ∈ b.body, isInner x = true)
      (hclose : Closes exit b.exit back rest) (hsome : front ++ b.body ++ back ≠ [])
      (h : Divides fresh exit rest blocks) :
      Divides fresh exit (front ++ b.body ++ back ++ rest) (b :: blocks)

/-- The blocks of a list; one that only leaves, if the list is empty. -/
def BlocksOf (fresh : Label → Prop) (exit : Option Label) : List Stmt → List Block → Prop
  | [], blocks => ∃ m, fresh m ∧ blocks = [⟨some m, [], .goto exit⟩]
  | x :: xs, blocks => Divides fresh exit (x :: xs) blocks

theorem Opens.mono {l : Option Label} (h : Opens fresh l xs) (hfresh : ∀ m, fresh m → fresh' m) :
    Opens fresh' l xs := by
  cases h with
  | place => exact .place l
  | made h => exact .made (hfresh _ h)

theorem Divides.mono (h : Divides fresh exit xs blocks) (hfresh : ∀ m, fresh m → fresh' m) :
    Divides fresh' exit xs blocks := by
  induction h with
  | done => exact .done
  | block hopen hinner hclose hsome _ ih =>
    exact .block (hopen.mono hfresh) hinner hclose hsome ih

theorem BlocksOf.mono (h : BlocksOf fresh exit xs blocks) (hfresh : ∀ m, fresh m → fresh' m) :
    BlocksOf fresh' exit xs blocks := by
  cases xs with
  | nil =>
    obtain ⟨m, hm, rfl⟩ := h
    exact ⟨m, hfresh m hm, rfl⟩
  | cons x xs => exact Divides.mono h hfresh

theorem Divides.eq_nil (h : Divides fresh exit xs []) : xs = [] := by
  cases h
  rfl

theorem isInner_of_exit? {x : Stmt} (h : x.exit? = some e) : isInner x = false := by
  cases x with
  | jump | cjump => rfl
  | missing | move | eval | seq | place => cases h

theorem Opens.filter_isInner {l : Option Label} (h : Opens fresh l xs) : xs.filter isInner = [] := by
  cases h with
  | place | made => rfl

theorem Closes.filter_isInner (h : Closes exit e xs rest) : xs.filter isInner = [] := by
  cases h with
  | jump h => simp [isInner_of_exit? h]
  | place | finish => rfl

/-- The bodies of the blocks hold what is neither a jump nor a place, in its order. -/
theorem Divides.flatMap_body (h : Divides fresh exit xs blocks) :
    blocks.flatMap (·.body) = xs.filter isInner := by
  induction h with
  | done => rfl
  | block hopen hinner hclose _ _ ih =>
    rw [filter_append, filter_append, filter_append, hopen.filter_isInner,
      hclose.filter_isInner, filter_eq_self.mpr hinner, flatMap_cons, ih, nil_append,
      append_nil]

theorem BlocksOf.flatMap_body (h : BlocksOf fresh exit xs blocks) :
    blocks.flatMap (·.body) = xs.filter isInner := by
  cases xs with
  | nil =>
    obtain ⟨m, -, rfl⟩ := h
    rfl
  | cons x xs => exact Divides.flatMap_body h

/-! ### Cutting -/

/-- The blocks of a list, the first of which was begun before it. -/
def GoesOn (fresh : Label → Prop) (exit : Option Label) (b : OpenBlock) (xs : List Stmt)
    (blocks : List Block) : Prop :=
  ∃ body back rest e bs, xs = body ++ (back ++ rest) ∧ blocks = ⟨b.label, b.body ++ body, e⟩ :: bs ∧
    (∀ x ∈ body, isInner x = true) ∧ Closes exit e back rest ∧ Divides fresh exit rest bs

theorem GoesOn.mono {b : OpenBlock} (h : GoesOn fresh exit b xs blocks)
    (hfresh : ∀ m, fresh m → fresh' m) : GoesOn fresh' exit b xs blocks := by
  obtain ⟨body, back, rest, e, bs, hxs, hblocks, hinner, hclose, hdivides⟩ := h
  exact ⟨body, back, rest, e, bs, hxs, hblocks, hinner, hclose, hdivides.mono hfresh⟩

theorem GoesOn.divides_place {l : Option Label} (h : GoesOn fresh exit { label := l } xs blocks) :
    Divides fresh exit (.place l :: xs) blocks := by
  obtain ⟨body, back, rest, e, bs, rfl, rfl, hinner, hclose, hdivides⟩ := h
  have hblock := Divides.block (b := ⟨l, body, e⟩) (.place l) hinner hclose (by simp) hdivides
  rwa [append_assoc, append_assoc] at hblock

theorem GoesOn.divides_made {m : Label} {x : Stmt} (hm : fresh m) (hplace : ∀ l, x ≠ .place l)
    (h : GoesOn fresh exit { label := some m } (x :: xs) blocks) :
    Divides fresh exit (x :: xs) blocks := by
  obtain ⟨body, back, rest, e, bs, hxs, rfl, hinner, hclose, hdivides⟩ := h
  rw [hxs]
  -- a block with nothing in it would be in front of a place
  have hsome : [] ++ body ++ back ≠ [] := by
    intro hnil
    obtain ⟨rfl, rfl⟩ := append_eq_nil_iff.mp hnil
    cases hclose with
    | place l rest => exact hplace l (List.cons.inj hxs).1
    | finish => cases hxs
  have hblock := Divides.block (b := ⟨some m, body, e⟩) (.made hm) hinner hclose hsome hdivides
  rwa [nil_append, append_assoc] at hblock

/-- What is cut from a list, with or without a block that was begun before. -/
def CutFrom (fresh : Label → Prop) (exit : Option Label) (xs : List Stmt) (blocks : List Block) :
    Option OpenBlock → Prop
  | none => Divides fresh exit xs blocks
  | some b => GoesOn fresh exit b xs blocks

/-- Nothing is cut where a statement is absent. -/
def Lacking (xs : List Stmt) : Prop := ∃ x ∈ xs, x.isPresent = false

theorem Lacking.cons {x : Stmt} (h : Lacking xs) : Lacking (x :: xs) := by
  obtain ⟨y, hy, habsent⟩ := h
  exact ⟨y, mem_cons_of_mem _ hy, habsent⟩

/-- An open block in front of a statement that is no place. -/
theorem cut_some_divides {x : Stmt} (b : OpenBlock) (hx : x.isPresent = true)
    (hplace : ∀ l, x ≠ .place l)
    (ih : ∀ cur, Ends (cut exit cur xs) s
      (fun blocks s' => s.Advances s' ∧ CutFrom (s.MadeLabel s') exit xs blocks cur)
      fun _ => Lacking xs) :
    Ends (cut exit (some b) (x :: xs)) s
      (fun blocks s' => s.Advances s' ∧ GoesOn (s.MadeLabel s') exit b (x :: xs) blocks)
      fun _ => Lacking (x :: xs) := by
  rw [cut_some b hx hplace]
  cases he : x.exit? with
  | some e =>
    dsimp only
    rw [ends_bind]
    refine (ih none).mono (fun bs s₁ h => ends_pure.mpr ⟨h.1, ?_⟩) fun _ h => h.cons
    refine ⟨[], [x], xs, e, bs, rfl, ?_, forall_mem_nil _, .jump he xs, h.2⟩
    rw [append_nil]
    rfl
  | none =>
    have hinner : isInner x = true := by
      rcases stmt_cases x with ⟨l, rfl⟩ | ⟨e, he'⟩ | hinner
      · exact absurd rfl (hplace l)
      · rw [he] at he'
        cases he'
      · exact hinner
    dsimp only
    refine (ih _).mono ?_ fun _ h => h.cons
    rintro blocks s₁ ⟨hadv, body, back, rest, e, bs, rfl, rfl, hbody, hclose, hdivides⟩
    refine ⟨hadv, x :: body, back, rest, e, bs, rfl, ?_,
      forall_mem_cons.mpr ⟨hinner, hbody⟩, hclose, hdivides⟩
    simp

theorem cut_divides (cur : Option OpenBlock) :
    Ends (cut exit cur xs) s
      (fun blocks s' => s.Advances s' ∧ CutFrom (s.MadeLabel s') exit xs blocks cur)
      fun _ => Lacking xs := by
  induction xs generalizing cur s with
  | nil =>
    cases cur with
    | none =>
      rw [cut]
      exact ends_pure.mpr ⟨.refl s, .done⟩
    | some b =>
      rw [cut]
      refine ends_pure.mpr ⟨.refl s, [], [], [], .goto exit, [], rfl, ?_, forall_mem_nil _,
        .finish, .done⟩
      rw [append_nil]
      rfl
  | cons x xs ih =>
    by_cases hplace : ∃ l, x = .place l
    · obtain ⟨l, rfl⟩ := hplace
      rw [cut_place, ends_bind]
      refine (ih (some { label := l })).mono (fun blocks s₁ h => ?_) fun _ h => h.cons
      have hdivides := h.2.divides_place
      cases cur with
      | none => exact ends_pure.mpr ⟨h.1, hdivides⟩
      | some b =>
        refine ends_pure.mpr ⟨h.1, [], [], .place l :: xs, .goto l, blocks, rfl, ?_,
          forall_mem_nil _, .place l xs, hdivides⟩
        rw [append_nil]
        rfl
    · have hplace' : ∀ l, x ≠ .place l := fun l hl => hplace ⟨l, hl⟩
      cases hx : x.isPresent with
      | false =>
        have habsent : Lacking (x :: xs) := ⟨x, mem_cons_self, hx⟩
        cases x with
        | missing => cases cur <;> (rw [cut]; exact ends_fail.mpr habsent)
        | move | eval | jump | cjump | seq | place => cases hx
      | true =>
        cases cur with
        | some b => exact cut_some_divides b hx hplace' fun cur => ih cur
        | none =>
          rw [cut_none hx hplace']
          refine freshLabel_advances.bind fun m s₁ h1 => ?_
          refine (cut_some_divides _ hx hplace' fun cur => ih cur).imp fun blocks s₂ h2 => ?_
          obtain ⟨hm, hs₁⟩ := h1
          have hgoes := h2.2.mono fun m hm => hm.mono hs₁.more (.refl s₂)
          exact ⟨hs₁.trans h2.1, hgoes.divides_made (hm.mono (.refl s) h2.1.more) hplace'⟩

theorem ofStmt_blocksOf {x : Stmt} : Ends (ofStmt exit x) s
    (fun blocks s' => s.Advances s' ∧ BlocksOf (s.MadeLabel s') exit x.flatten blocks)
    fun _ => Lacking x.flatten := by
  rw [ofStmt]
  generalize x.flatten = xs
  cases xs with
  | nil =>
    rw [cut, pure_bind]
    exact freshLabel_advances.bind fun m s₁ h1 => ends_pure.mpr ⟨h1.2, m, h1.1, rfl⟩
  | cons y ys =>
    refine (cut_divides none).bind fun blocks s₁ h => ?_
    cases blocks with
    | nil => exact absurd (Divides.eq_nil h.2) (cons_ne_nil y ys)
    | cons b bs => exact ends_pure.mpr h

end Codegen.Semantics
