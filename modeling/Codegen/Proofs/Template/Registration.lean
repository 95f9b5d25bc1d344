import Codegen.Proofs.Selection.Catalog
import Codegen.Proofs.Template.Grammar

/-!
# Adding templates

A template is made of a pattern and of skeletons that are written as they have to be, and of nothing
else (`Template.exists_make_iff`). Its recipes say piece by piece what the skeletons say
(`Recipe.Resolves`). Adding one to a catalog makes the list of its class longer by one and changes
nothing else; where it is refused, nothing changes (`Catalog.add_registers`).
-/

namespace Codegen

open List

variable {reg? : String → Option Reg} {leaves : List LeafKind} {s : Skeleton} {r : Recipe}

/-! ### Skeletons -/

/-- A skeleton that is written as it has to be: its text is made of literals and placeholders, and the
registers that it names besides are known. -/
structure Skeleton.WellFormed (reg? : String → Option Reg) (leaves : List LeafKind) (s : Skeleton) :
    Prop where
  text : ∃ pieces parts, pieces.flatMap Piece.source = s.text.toList ∧
    List.Forall₂ (Piece.Stands reg? leaves) pieces parts
  regs : ∀ n ∈ s.uses ++ s.defs, ∃ r, reg? n = some r

/-- The recipe says what the skeleton says. The pieces of the text stand for its parts, one for each,
and put together they are the text. -/
structure Recipe.Resolves (reg? : String → Option Reg) (leaves : List LeafKind) (s : Skeleton)
    (r : Recipe) : Prop where
  source : (Piece.scan s.text).flatMap Piece.source = s.text.toList
  parts : List.Forall₂ (Piece.Stands reg? leaves) (Piece.scan s.text) r.parts
  uses : s.uses.map reg? = r.uses.map some
  defs : s.defs.map reg? = r.defs.map some
  flags : r.isMove = s.isMove ∧ r.isBranch = s.isBranch ∧ r.isCall = s.isCall

theorem Recipe.exists_ofSkeleton_iff :
    (∃ r, Recipe.ofSkeleton reg? leaves s = .ok r) ↔ s.WellFormed reg? leaves := by
  constructor
  · rintro ⟨r, hr⟩
    obtain ⟨parts, uses, defs, hparts, huses, hdefs, -⟩ := Recipe.ofSkeleton_eq_ok_iff.mp hr
    refine ⟨Piece.exists_parts_iff.mp ⟨parts, hparts⟩, ?_⟩
    exact forall_mem_append.mpr ⟨exists_forall₂_iff.mp ⟨_, namedRegs_eq_ok_iff.mp huses⟩,
      exists_forall₂_iff.mp ⟨_, namedRegs_eq_ok_iff.mp hdefs⟩⟩
  · rintro ⟨⟨pieces, parts, hsource, hpieces⟩, hregs⟩
    have hread := Piece.symbols?_of_stands hpieces
    rw [hsource] at hread
    exact Recipe.exists_ofSkeleton hread hregs

theorem Recipe.resolves_of_ofSkeleton (h : Recipe.ofSkeleton reg? leaves s = .ok r) :
    r.Resolves reg? leaves s := by
  obtain ⟨parts, uses, defs, hparts, huses, hdefs, rfl⟩ := Recipe.ofSkeleton_eq_ok_iff.mp h
  obtain ⟨hsource, hstands⟩ := Piece.stands_scan hparts
  have hnamed {names : List String} {rs : List Reg} (h : namedRegs reg? s names = .ok rs) :
      names.map reg? = rs.map some := by
    rw [← forall₂_eq_eq_eq, forall₂_map_left_iff, forall₂_map_right_iff]
    exact namedRegs_eq_ok_iff.mp h
  exact ⟨hsource, hstands, hnamed huses, hnamed hdefs, rfl, rfl, rfl⟩

/-! ### Refusals -/

theorem Part.kind_of_ofPiece {q : Piece} {e : Error} (h : Part.ofPiece reg? leaves q = .error e) :
    e.kind = .badTemplate := by
  cases q with
  | text cs => cases h
  | strayClose | unclosed =>
    cases h
    rfl
  | slot offset body =>
    rw [Part.ofPiece] at h
    split at h
    · cases h
    · cases h
      rfl

theorem kind_of_namedRegs {names : List String} {e : Error} (h : namedRegs reg? s names = .error e) :
    e.kind = .badTemplate := by
  induction names with
  | nil => cases h
  | cons n names ih =>
    rw [namedRegs] at h
    split at h
    · obtain hrest | ⟨rs, -, ⟨⟩⟩ := bind_eq_error_iff.mp h
      exact ih hrest
    · cases h
      rfl

theorem Recipe.kind_of_ofSkeleton {e : Error} (h : Recipe.ofSkeleton reg? leaves s = .error e) :
    e.kind = .badTemplate := by
  unfold Recipe.ofSkeleton at h
  split at h
  · simp only [bind_eq_error_iff] at h
    obtain ⟨⟨⟩⟩ | ⟨_, ⟨⟩, huses | ⟨_, -, hdefs | ⟨_, -, ⟨⟩⟩⟩⟩ := h
    · exact kind_of_namedRegs huses
    · exact kind_of_namedRegs hdefs
  · rename_i e' hparts
    cases h
    obtain ⟨q, -, hq⟩ := exists_error_of_mapM hparts
    exact (Part.kind_of_ofPiece hq : e'.kind = _)

namespace Template

variable {pattern : Node} {skeletons : List Skeleton} {wide : Bool}

/-- What a template can be made of. -/
theorem exists_make_iff : (∃ t, make reg? pattern skeletons wide = .ok t) ↔
    pattern.IsPattern ∧ ∀ s ∈ skeletons, s.WellFormed reg? pattern.leafKinds := by
  simp only [make_eq_ok_iff, Node.checkPattern_eq_ok_iff, ← Recipe.exists_ofSkeleton_iff]
  rw [← exists_forall₂_iff]
  constructor
  · rintro ⟨t, hpattern, recipes, hrecipes, -⟩
    exact ⟨hpattern, recipes, hrecipes⟩
  · rintro ⟨hpattern, recipes, hrecipes⟩
    exact ⟨_, hpattern, recipes, hrecipes, rfl⟩

theorem kind_of_make {e : Error} (h : make reg? pattern skeletons wide = .error e) :
    e.kind = .badTemplate := by
  unfold make at h
  cases hpattern : pattern.checkPattern with
  | error why =>
    rw [hpattern] at h
    cases h
    rfl
  | ok u =>
    cases hrecipes : skeletons.mapM (Recipe.ofSkeleton reg? pattern.leafKinds) with
    | error e' =>
      rw [hpattern, hrecipes] at h
      cases h
      obtain ⟨s, -, hs⟩ := exists_error_of_mapM hrecipes
      exact (Recipe.kind_of_ofSkeleton hs : e'.kind = _)
    | ok recipes =>
      rw [hpattern, hrecipes] at h
      cases h

end Template

/-! ### Catalogs -/

/-- Patterns have a class with a list of templates. -/
theorem Node.IsPattern.isKnown_head {p : Node} (h : p.IsPattern) : p.head.isKnown = true := by
  cases h with
  | operand h =>
    cases h with
    | bin hop hl hr => exact hop
    | int | addr | temp | mem => rfl
  | cjump hc hl hr => exact hc
  | call | place | moveTemp | moveMem | jump => rfl

namespace Catalog

variable (c : Catalog) (pattern : Node) (skeletons : List Skeleton) (wide : Bool)

theorem add_eq_ok_iff {t : Template} {c' : Catalog} : add pattern skeletons wide c = .ok t c' ↔
    Template.make c.reg? pattern skeletons wide = .ok t ∧
      c' = { c with templates := c.templates ++ [t] } := by
  cases h : Template.make c.reg? pattern skeletons wide with
  | error e =>
    rw [add_of_make_error h]
    exact iff_of_false (by rintro ⟨⟩) (by rintro ⟨⟨⟩, _⟩)
  | ok t' =>
    rw [add_of_make_ok h]
    constructor
    · rintro ⟨⟩
      exact ⟨rfl, rfl⟩
    · rintro ⟨⟨⟩, rfl⟩
      rfl

/-- The lists of templates after one was added. -/
theorem templatesFor?_append (t : Template) (x : Node) :
    ({ c with templates := c.templates ++ [t] } : Catalog).templatesFor? x =
      if x.head = t.pattern.head then (c.templatesFor? x).map (· ++ [t]) else c.templatesFor? x := by
  unfold templatesFor? templatesOf
  by_cases hhead : x.head = t.pattern.head
  · simp only [filter_append, hhead, if_true]
    cases t.pattern.head.isKnown <;> simp
  · simp [filter_append, hhead, Ne.symm hhead]

/-- Adding a template succeeds exactly if its pattern is a pattern and its skeletons are written as
they have to be. The template is then the one that was written down, it comes last in the list of its
class, and no other list changes. Otherwise the template is called bad, and the catalog that is left
behind is the one that was there. -/
theorem add_registers :
    ((∃ t c', add pattern skeletons wide c = .ok t c') ↔
      pattern.IsPattern ∧ ∀ s ∈ skeletons, s.WellFormed c.reg? pattern.leafKinds) ∧
    (∀ t c', add pattern skeletons wide c = .ok t c' →
      (t.pattern = pattern ∧ t.skeletons = skeletons ∧ t.wide = wide ∧
        List.Forall₂ (fun s r => Recipe.Resolves c.reg? pattern.leafKinds s r) skeletons t.recipes) ∧
      c' = { c with templates := c'.templates } ∧
      (∃ list, c.templatesFor? pattern = some list ∧ c'.templatesFor? pattern = some (list ++ [t])) ∧
      ∀ x : Node, x.head ≠ pattern.head → c'.templatesFor? x = c.templatesFor? x) ∧
    ∀ failure c', add pattern skeletons wide c = .error failure c' →
      (∃ e, failure = .error e ∧ e.kind = .badTemplate) ∧ c' = c := by
  refine ⟨?_, fun t c' h => ?_, fun failure c' h => ?_⟩
  · have hmake : (∃ t c', add pattern skeletons wide c = .ok t c') ↔
        ∃ t, Template.make c.reg? pattern skeletons wide = .ok t := by
      simp only [add_eq_ok_iff, exists_and_left, exists_eq, and_true]
    exact hmake.trans Template.exists_make_iff
  · obtain ⟨ht, rfl⟩ := (c.add_eq_ok_iff pattern skeletons wide).mp h
    obtain ⟨hpattern, recipes, hrecipes, rfl⟩ := Template.make_eq_ok_iff.mp ht
    have hlist := c.templatesFor?_append ⟨pattern, skeletons, wide, recipes⟩
    refine ⟨⟨rfl, rfl, rfl, hrecipes.imp fun s r hr => Recipe.resolves_of_ofSkeleton hr⟩, rfl, ?_,
      fun x hx => by rw [hlist, if_neg hx]⟩
    have hknown := (Node.checkPattern_eq_ok_iff.mp hpattern).isKnown_head
    have hold : c.templatesFor? pattern = some (c.templatesOf pattern.head) := by
      rw [templatesFor?, if_pos hknown]
    exact ⟨_, hold, by rw [hlist, if_pos rfl, hold]; rfl⟩
  · cases ht : Template.make c.reg? pattern skeletons wide with
    | error e =>
      rw [add_of_make_error ht] at h
      cases h
      exact ⟨⟨e, rfl, Template.kind_of_make ht⟩, rfl⟩
    | ok t =>
      rw [add_of_make_ok ht] at h
      cases h

end Catalog

end Codegen
