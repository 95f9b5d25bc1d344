import Codegen.Proofs.Selection.Covering

/-!
# Maximal munch

When a pattern matches a node, and how many nodes it covers then, is said by rules (`Expr.Tiles`,
`Node.Tiles`, `Template.Tiles`). Of the templates of a catalog the selector takes one that covers the
most nodes, and of several such the one that was added first (`IsMunch`); it finds none only if none
matches (`Selection.find_munches`).
-/

namespace Codegen

open List

/-! ### Tiles -/

/-- The pattern matches the expression and covers `n` of its nodes; `takes` says which constants are
acceptable. A register of the pattern stands for any expression, but covers none of its nodes unless
it is a register. -/
inductive Expr.Tiles (takes : Int64 → Prop) : Expr → Expr → Nat → Prop
  | reg (q r : Option Reg) : Tiles takes (.temp q) (.temp r) 1
  | rest (q : Option Reg) {x : Expr} (hx : ∀ r, x ≠ .temp r) : Tiles takes (.temp q) x 0
  | anyInt {v : Int64} (hv : takes v) : Tiles takes (.int 0) (.int v) 1
  | int {v : Int64} (hv : takes v) : Tiles takes (.int v) (.int v) 1
  | addr (l l' : Option Label) : Tiles takes (.addr l) (.addr l') 1
  | bin {op : Op} {p q x y : Expr} {pos pos' : Int} {m n : Nat} (hl : Tiles takes p x m)
      (hr : Tiles takes q y n) : Tiles takes (.bin op p q pos) (.bin op x y pos') (m + n + 1)
  | mem {p x : Expr} {n : Nat} (ha : Tiles takes p x n) : Tiles takes (.mem p) (.mem x) (n + 1)
  | call {p x link link' : Expr} {args args' : List Expr} {n : Nat} (hf : Tiles takes p x n) :
      Tiles takes (.call p args link) (.call x args' link') (n + 1)

/-- The pattern matches the node and covers `n` nodes. As a root and as the destination of a move a
register matches registers only. -/
inductive Node.Tiles (takes : Int64 → Prop) : Node → Node → Nat → Prop
  | reg (q r : Option Reg) : Tiles takes (.expr (.temp q)) (.expr (.temp r)) 1
  | expr {p x : Expr} {n : Nat} (hp : ∀ q, p ≠ .temp q) (h : p.Tiles takes x n) :
      Tiles takes (.expr p) (.expr x) n
  | moveReg {q r : Option Reg} {p x : Expr} {n : Nat} (hs : p.Tiles takes x n) :
      Tiles takes (.stmt (.move (.temp q) p)) (.stmt (.move (.temp r) x)) (1 + n + 1)
  | move {p q x y : Expr} {m n : Nat} (hp : ∀ r, p ≠ .temp r) (hd : p.Tiles takes x m)
      (hs : q.Tiles takes y n) : Tiles takes (.stmt (.move p q)) (.stmt (.move x y)) (m + n + 1)
  | jump {p x : Expr} {ts ts' : List (Option Label)} {n : Nat} (hd : p.Tiles takes x n) :
      Tiles takes (.stmt (.jump p ts)) (.stmt (.jump x ts')) (n + 1)
  | cjump {c : Cond} {p q x y : Expr} {t t' f f' : Option Label} {m n : Nat}
      (hl : p.Tiles takes x m) (hr : q.Tiles takes y n) :
      Tiles takes (.stmt (.cjump c p q t f)) (.stmt (.cjump c x y t' f')) (m + n + 1)
  | place (l l' : Option Label) : Tiles takes (.stmt (.place l)) (.stmt (.place l')) 1

/-- The template matches the node and covers `n` nodes. One that is not wide takes only constants that
fit. -/
def Template.Tiles (fits : Int64 → Bool) (t : Template) (x : Node) (n : Nat) : Prop :=
  t.pattern.Tiles (fun v => t.wide = true ∨ fits v = true) x n

section

variable {fits : Int64 → Bool} {n : Nat}

theorem Expr.Binds.tiles {p x : Expr} {b : Binding} (h : p.Binds fits x b) :
    p.Tiles (fits · = true) x b.covered := by
  induction h with
  | reg q r => exact .reg q r
  | rest q hx => exact .rest q hx
  | int hc =>
    simp only [Bool.and_eq_true, Bool.or_eq_true, beq_iff_eq] at hc
    obtain ⟨rfl | rfl, hv⟩ := hc
    · exact .anyInt hv
    · exact .int hv
  | addr l l' => exact .addr l l'
  | bin _ _ ihl ihr => exact .bin ihl ihr
  | mem _ ih => exact .mem ih
  | call _ ih => exact .call ih

theorem Expr.exists_bind_of_tiles {p x : Expr} (h : p.Tiles (fits · = true) x n) :
    ∃ b, p.bind fits x = some b ∧ b.covered = n := by
  induction h with
  | reg q r => exact ⟨_, rfl, rfl⟩
  | @rest q x hx =>
    refine ⟨⟨0, [.glue x]⟩, ?_, rfl⟩
    rw [Expr.bind]
    exact hx
  | @anyInt v hv | @int v hv => exact ⟨⟨1, [.int v]⟩, by simp [Expr.bind, hv], rfl⟩
  | addr => exact ⟨_, rfl, rfl⟩
  | bin _ _ ihl ihr =>
    obtain ⟨a, ha, rfl⟩ := ihl
    obtain ⟨b, hb, rfl⟩ := ihr
    exact ⟨(a.also b).above, by simp [Expr.bind, ha, hb], rfl⟩
  | mem _ ih | call _ ih =>
    obtain ⟨a, ha, rfl⟩ := ih
    exact ⟨a.above, by simp [Expr.bind, ha], rfl⟩

theorem Stmt.Binds.tiles {p x : Stmt} {b : Binding} (h : p.Binds fits x b) :
    (Node.stmt p).Tiles (fits · = true) (.stmt x) b.covered := by
  cases h with
  | moveReg q r hc => exact .moveReg hc.tiles
  | move hd ha hc => exact .move hd ha.tiles hc.tiles
  | jump hc => exact .jump hc.tiles
  | cjump ha hc => exact .cjump ha.tiles hc.tiles
  | place l l' => exact .place l l'

/-- Matching follows the rules. -/
theorem Node.tiles_iff {p x : Node} : p.Tiles (fits · = true) x n ↔
    p.head = x.head ∧ ∃ b, p.bind fits x = some b ∧ b.covered = n := by
  constructor
  · intro h
    cases h with
    | reg => exact ⟨rfl, _, rfl, rfl⟩
    | @expr p x n hp h =>
      refine ⟨?_, Expr.exists_bind_of_tiles h⟩
      cases h with
      | reg q | rest q => exact absurd rfl (hp q)
      | anyInt | int | addr | bin | mem | call => rfl
    | @moveReg q r p x n hs =>
      obtain ⟨b, hb, rfl⟩ := Expr.exists_bind_of_tiles hs
      refine ⟨rfl, (Binding.also ⟨1, [.temp r]⟩ b).above, ?_, rfl⟩
      rw [Node.bind, Stmt.bind, hb, Option.map_some]
    | @move p q x y m n hp hd hs =>
      obtain ⟨a, ha, rfl⟩ := Expr.exists_bind_of_tiles hd
      obtain ⟨b, hb, rfl⟩ := Expr.exists_bind_of_tiles hs
      refine ⟨rfl, (a.also b).above, ?_, rfl⟩
      simp [Node.bind, Stmt.bind, ha, hb, hp]
    | jump hd =>
      obtain ⟨b, hb, rfl⟩ := Expr.exists_bind_of_tiles hd
      exact ⟨rfl, b.above, by simp [Node.bind, Stmt.bind, hb], rfl⟩
    | cjump hl hr =>
      obtain ⟨a, ha, rfl⟩ := Expr.exists_bind_of_tiles hl
      obtain ⟨b, hb, rfl⟩ := Expr.exists_bind_of_tiles hr
      exact ⟨rfl, (a.also b).above, by simp [Node.bind, Stmt.bind, ha, hb], rfl⟩
    | place => exact ⟨rfl, _, rfl, rfl⟩
  · rintro ⟨hhead, b, hb, rfl⟩
    cases p with
    | stmt p =>
      cases x with
      | expr x => cases hb
      | stmt x => exact (Stmt.binds_of_bind hb).tiles
    | expr p =>
      cases x with
      | stmt x => cases hb
      | expr x =>
        by_cases hp : ∀ q, p ≠ .temp q
        · exact .expr hp ((Expr.binds_of_bind hb).tiles)
        · -- nodes of the class of registers are registers
          obtain ⟨q, rfl⟩ : ∃ q, p = .temp q := by simpa using hp
          cases x with
          | temp r =>
            cases hb
            exact .reg q r
          | missing | int | addr | bin | mem | call | eseq => cases hhead

/-! ### Scanning matches -/

namespace Catalog

variable {c : Catalog} {x : Node} {t : Template}

theorem tiles_iff : t.Tiles c.fits x n ↔ t.pattern.head = x.head ∧
    ∃ b, t.pattern.bind (c.accepts t) x = some b ∧ b.covered = n := by
  rw [← Node.tiles_iff, Template.Tiles]
  simp only [accepts, Bool.or_eq_true]

/-- The match of a template with a node. -/
def match? (c : Catalog) (x : Node) (t : Template) : Option (Template × Binding) :=
  if t.pattern.head = x.head then (t.pattern.bind (c.accepts t) x).map fun b => (t, b) else none

theorem matching_eq : c.matching x = c.templates.filterMap (c.match? x) := by
  rw [matching, templatesOf, filterMap_filter]
  simp only [decide_eq_true_eq]
  rfl

theorem tiles_iff_match? : t.Tiles c.fits x n ↔ ∃ b, c.match? x t = some (t, b) ∧ b.covered = n := by
  rw [tiles_iff, match?]
  split <;> simp [*]

theorem eq_of_match? {m : Template × Binding} (h : c.match? x t = some m) : m.1 = t := by
  unfold match? at h
  split at h
  · obtain ⟨b, -, rfl⟩ := Option.map_eq_some_iff.mp h
    rfl
  · cases h

/-- The scan ends with the first of the best matches. -/
theorem foldl_better_eq_some {ms : List (Template × Binding)} {m : Template × Binding}
    (h : ms.foldl better none = some m) : ∃ before after, ms = before ++ m :: after ∧
      (∀ m' ∈ before, m'.2.covered < m.2.covered) ∧ ∀ m' ∈ after, m'.2.covered ≤ m.2.covered := by
  induction ms using List.reverseRecOn generalizing m with
  | nil => cases h
  | append_singleton ms a ih =>
    rw [foldl_append, foldl_cons, foldl_nil] at h
    cases hms : ms.foldl better none with
    | none =>
      obtain rfl : ms = [] := by
        by_contra hne
        have hsome : (ms.foldl better none).isSome = true := foldl_better_isSome (Or.inr hne)
        rw [hms] at hsome
        cases hsome
      rw [hms] at h
      cases h
      exact ⟨[], [], rfl, by simp⟩
    | some b =>
      obtain ⟨before, after, rfl, hbefore, hafter⟩ := ih hms
      rw [hms, better] at h
      split at h
      · rename_i hlt
        cases h
        refine ⟨before ++ b :: after, [], rfl, ?_, by simp⟩
        intro m' hm'
        rcases mem_append.mp hm' with hm' | hm'
        · exact (hbefore m' hm').trans hlt
        · rcases mem_cons.mp hm' with rfl | hm'
          · exact hlt
          · exact (hafter m' hm').trans_lt hlt
      · rename_i hle
        cases h
        refine ⟨before, after ++ [a], by simp, hbefore, ?_⟩
        intro m' hm'
        rcases mem_append.mp hm' with hm' | hm'
        · exact hafter m' hm'
        · rw [mem_singleton.mp hm']
          exact Nat.not_lt.mp hle

end Catalog

/-! ### The template that is taken -/

/-- Of the templates, in the order in which they were added, `t` is the one to take: it matches the
node, no other covers more, and those that were added before it cover less. -/
def IsMunch (fits : Int64 → Bool) (ts : List Template) (x : Node) (t : Template) : Prop :=
  ∃ before after n, ts = before ++ t :: after ∧ t.Tiles fits x n ∧
    (∀ t' ∈ ts, ∀ n', t'.Tiles fits x n' → n' ≤ n) ∧
    ∀ t' ∈ before, ∀ n', t'.Tiles fits x n' → n' < n

/-- There is only one template to take. -/
theorem IsMunch.unique {ts : List Template} {x : Node} {t t' : Template} (h : IsMunch fits ts x t)
    (h' : IsMunch fits ts x t') : t = t' := by
  obtain ⟨before, after, n, hts, ht, hmax, hbefore⟩ := h
  obtain ⟨before', after', n', hts', ht', hmax', hbefore'⟩ := h'
  have hn : n = n' := by
    refine le_antisymm (hmax' t ?_ n ht) (hmax t' ?_ n' ht')
    · rw [hts]
      simp
    · rw [hts']
      simp
  subst hn
  rcases append_eq_append_iff.mp (hts.symm.trans hts') with ⟨as, rfl, has⟩ | ⟨as, rfl, has⟩
  · cases as with
    | nil => exact (List.cons.inj has).1
    | cons a as =>
      cases (List.cons.inj has).1
      exact absurd (hbefore' t (by simp) n ht) (Nat.lt_irrefl n)
  · cases as with
    | nil => exact (List.cons.inj has).1.symm
    | cons a as =>
      cases (List.cons.inj has).1
      exact absurd (hbefore t' (by simp) n ht') (Nat.lt_irrefl n)

namespace Catalog

variable {c : Catalog} {x : Node} {t : Template}

theorem isMunch_of_find? {b : Binding} (h : c.find? x = some (t, b)) :
    IsMunch c.fits c.templates x t := by
  obtain ⟨ms, ms', hsplit, hms, hms'⟩ := foldl_better_eq_some h
  rw [matching_eq] at hsplit
  obtain ⟨ts, ts', hts, rfl, hcons⟩ := filterMap_eq_append_iff.mp hsplit
  obtain ⟨skipped, t', after, rfl, hskipped, hmatch, rfl⟩ := filterMap_eq_cons_iff.mp hcons
  obtain rfl : t = t' := eq_of_match? hmatch
  have hbefore : ∀ t' ∈ ts ++ skipped, ∀ n', t'.Tiles c.fits x n' → n' < b.covered := by
    intro t' ht' n' hn'
    obtain ⟨b', hb', rfl⟩ := tiles_iff_match?.mp hn'
    rcases mem_append.mp ht' with ht' | ht'
    · exact hms _ (mem_filterMap.mpr ⟨t', ht', hb'⟩)
    · rw [hskipped t' ht'] at hb'
      cases hb'
  refine ⟨ts ++ skipped, after, b.covered, by rw [hts, append_assoc],
    tiles_iff_match?.mpr ⟨b, hmatch, rfl⟩, ?_, hbefore⟩
  intro t' ht' n' hn'
  rw [hts, ← append_assoc] at ht'
  rcases mem_append.mp ht' with ht' | ht'
  · exact (hbefore t' ht' n' hn').le
  · obtain ⟨b', hb', rfl⟩ := tiles_iff_match?.mp hn'
    rcases mem_cons.mp ht' with rfl | ht'
    · rw [hmatch] at hb'
      cases hb'
      exact le_rfl
    · exact hms' _ (mem_filterMap.mpr ⟨t', ht', hb'⟩)

theorem exists_find?_of_tiles (ht : t ∈ c.templates) (h : t.Tiles c.fits x n) :
    ∃ m, c.find? x = some m := by
  obtain ⟨hhead, b, hb, -⟩ := tiles_iff.mp h
  exact exists_find?_of_mem ht hhead hb

/-- The best match is the one to take. -/
theorem exists_find?_iff : (∃ b, c.find? x = some (t, b)) ↔ IsMunch c.fits c.templates x t := by
  constructor
  · rintro ⟨b, hb⟩
    exact isMunch_of_find? hb
  · intro h
    obtain ⟨before, after, n, hts, hn, -⟩ := id h
    obtain ⟨⟨t', b⟩, hfind⟩ := exists_find?_of_tiles (by rw [hts]; simp) hn
    rw [h.unique (isMunch_of_find? hfind)]
    exact ⟨b, hfind⟩

theorem find?_eq_none_iff :
    c.find? x = none ↔ ∀ t ∈ c.templates, ∀ n, ¬ t.Tiles c.fits x n := by
  constructor
  · intro h t ht n hn
    obtain ⟨m, hm⟩ := exists_find?_of_tiles ht hn
    rw [h] at hm
    cases hm
  · intro h
    rw [Option.eq_none_iff_forall_ne_some]
    rintro ⟨t, b⟩ hfind
    obtain ⟨before, after, n, hts, hn, -⟩ := isMunch_of_find? hfind
    exact h t (by rw [hts]; simp) n hn

end Catalog

end

namespace Selection

/-- Whatever templates were added to a catalog and whatever constants fit, a node with no unknown
operator or condition on top gets the template to take, and if no template matches it the search fails
for want of a template. -/
theorem find_munches (base : Catalog) (srcs : List TemplateSource) (conv : Option Convention)
    (x : Node) (hx : x.head.isKnown = true) (st : State) :
    (∀ t, (∃ m st', find ⟨base.addAll srcs, conv⟩ x st = .ok m st' ∧ m.val.1 = t) ↔
      IsMunch base.fits (base.templates ++ srcs.filterMap (·.make? base.reg?)) x t) ∧
    ((∃ e, find ⟨base.addAll srcs, conv⟩ x st = .error (.error e) st ∧ e.kind = .noTemplate) ↔
      ∀ t ∈ base.templates ++ srcs.filterMap (·.make? base.reg?), ∀ n, ¬ t.Tiles base.fits x n) := by
  have hts : (base.addAll srcs).templates = base.templates ++ srcs.filterMap (·.make? base.reg?) := by
    rw [Catalog.addAll_eq]
  rw [← hts, ← Catalog.fits_addAll base srcs]
  generalize base.addAll srcs = c
  rw [← Catalog.find?_eq_none_iff]
  refine ⟨fun t => ?_, ?_⟩
  · rw [← Catalog.exists_find?_iff]
    constructor
    · rintro ⟨⟨⟨t', b⟩, hm⟩, st', -, rfl⟩
      exact ⟨b, hm⟩
    · rintro ⟨b, hm⟩
      exact ⟨⟨(t, b), hm⟩, _, by rw [find_eq_tell hx hm]; rfl, rfl⟩
  · constructor
    · rintro ⟨e, hfind, -⟩
      by_contra hm
      obtain ⟨m, hm⟩ := Option.ne_none_iff_exists'.mp hm
      rw [find_eq_tell hx hm] at hfind
      cases hfind
    · intro hm
      exact ⟨_, by rw [find_eq_fail hx hm]; rfl, rfl⟩

/-- A machine with room for one digit in its instructions. -/
def narrow : Catalog := { name := "narrow", machine := [], imm := some ⟨0, 9⟩ }

open TemplateSource in
/-- Loads from a register, from a register and a constant, and from two registers. -/
def loads : List TemplateSource :=
  [value mem [], value memOff [], value (.mem (bin .add reg reg)) []]

/-- The address that is a register and a constant. -/
def loadAt (v : Int64) : Node := .expr (.mem (.bin .add (.temp none) (.int v) 0))

/-- A constant that fits is part of the load, and one that does not is left over. A lone constant has
no template. -/
theorem loads_munched :
    ((loadAt 7).head.isKnown = true ∧ IsMunch narrow.fits
      (narrow.templates ++ loads.filterMap (·.make? narrow.reg?)) (loadAt 7)
      ⟨.expr TemplateSource.memOff, [], false, []⟩) ∧
    ((loadAt 70).head.isKnown = true ∧ IsMunch narrow.fits
      (narrow.templates ++ loads.filterMap (·.make? narrow.reg?)) (loadAt 70)
      ⟨.expr (.mem (TemplateSource.bin .add TemplateSource.reg TemplateSource.reg)), [], false, []⟩) ∧
    ((Node.expr (.int 7)).head.isKnown = true ∧
      ∀ t ∈ narrow.templates ++ loads.filterMap (·.make? narrow.reg?), ∀ n,
        ¬ t.Tiles narrow.fits (.expr (.int 7)) n) :=
  ⟨⟨rfl, ((find_munches narrow loads none (loadAt 7) rfl {}).1 _).mp ⟨_, _, rfl, rfl⟩⟩,
    ⟨rfl, ((find_munches narrow loads none (loadAt 70) rfl {}).1 _).mp ⟨_, _, rfl, rfl⟩⟩,
    ⟨rfl, (find_munches narrow loads none (.expr (.int 7)) rfl {}).2.mp ⟨_, rfl, rfl⟩⟩⟩

end Selection

end Codegen
