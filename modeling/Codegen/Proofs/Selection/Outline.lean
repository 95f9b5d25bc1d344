import Codegen.Proofs.Selection.Faithful

/-!
# Templates by the names of their registers

A template names machine registers. By their names alone (`Recipe.outline`) it can be checked that it
is tidy (`isTidy`): that its instructions fit what its pattern matches, name only some registers, and
read none of them before they have written it. What holds of the names holds of the template that is
made over the registers of a catalog (`Template.tidy_of_isTidy`). In the same way it can be checked that
it is confined (`isConfined`): that it writes to no leaf but the register that a move goes to.
-/

namespace Codegen

open List

/-! ### Machine registers by name -/

/-- A register that stands for all of its name. -/
def Reg.named (name : String) : Reg := ⟨0, 0, name⟩

/-- Whether the class is that of a conditional jump. -/
def Head.isBranch : Head → Bool
  | .cjump _ => true
  | _ => false

namespace Part

/-- The machine register that a part names for some use of it. -/
def fixed? (use : Access → Bool) : Part → Option Reg
  | .fixed r access => if use access then some r else none
  | _ => none

/-- The part with its register known by name only. -/
def outline : Part → Part
  | .fixed r access => .fixed (.named r.name) access
  | p => p

/-- Whether the part can be filled in for what the pattern matches. -/
def suits (p : Node) : Part → Bool
  | .text _ | .fixed .. => true
  | .leaf n _ => n < p.leafKinds.length
  | .out access => access.writes
  | .onTrue | .onFalse => p.head.isBranch
  | .label => p.head = .place

variable {reg? : String → Option Reg} {kinds : List LeafKind} {p : Part}

@[simp] theorem makesValue_outline (p : Part) : p.outline.makesValue = p.makesValue := by
  cases p <;> rfl

@[simp] theorem suits_outline (x : Node) (p : Part) : p.outline.suits x = p.suits x := by
  cases p <;> rfl

theorem outline_eq_label : p.outline = .label ↔ p = .label := by
  cases p <;> simp [outline]

theorem outline_eq_leaf {n : Nat} {access : Access} :
    p.outline = .leaf n access ↔ p = .leaf n access := by
  cases p <;> simp [outline]

theorem name_fixed?_outline (use : Access → Bool) (p : Part) :
    (p.outline.fixed? use).map Reg.name = (p.fixed? use).map Reg.name := by
  cases p with
  | fixed r access =>
    simp only [outline, fixed?]
    split <;> rfl
  | text | leaf | out | onTrue | onFalse | label => rfl

/-- A register that a part names is the one of that name. -/
theorem reg?_of_fixed? {q : Piece} {use : Access → Bool} {r : Reg}
    (hreg : ∀ n r, reg? n = some r → r.name = n) (h : ofPiece reg? kinds q = .ok p)
    (hr : p.fixed? use = some r) : reg? r.name = some r := by
  cases p with
  | fixed w access =>
    rw [fixed?, Option.ite_none_right_eq_some, Option.some.injEq] at hr
    obtain ⟨-, rfl⟩ := hr
    cases q with
    | text | strayClose | unclosed => cases h
    | slot offset body =>
      cases ofPiece_slot.mp h with
      | readReg hw | writeReg hw => rwa [hreg _ _ hw]
  | text | leaf | out | onTrue | onFalse | label => cases hr

/-- What a placeholder stands for does not depend on where registers are found. -/
theorem Placeholder.outline {body : List Char} (hreg : ∀ n r, reg? n = some r → r.name = n)
    (h : Placeholder reg? kinds body p) :
    Placeholder (fun n => some (.named n)) kinds body p.outline := by
  cases h with
  | out => exact .out
  | updateOut => exact .updateOut
  | onTrue => exact .onTrue
  | onFalse => exact .onFalse
  | label => exact .label
  | readReg hr => exact .readReg (congrArg (fun n => some (Reg.named n)) (hreg _ _ hr).symm)
  | writeReg hr => exact .writeReg (congrArg (fun n => some (Reg.named n)) (hreg _ _ hr).symm)
  | readLeaf hsign hn hlt => exact .readLeaf hsign hn hlt
  | writeLeaf hn htemp => exact .writeLeaf hn htemp
  | updateLeaf hn htemp => exact .updateLeaf hn htemp

theorem outline_ofPiece {q : Piece} (hreg : ∀ n r, reg? n = some r → r.name = n)
    (h : ofPiece reg? kinds q = .ok p) :
    ofPiece (fun n => some (.named n)) kinds q = .ok p.outline := by
  cases q with
  | text cs =>
    cases h
    rfl
  | strayClose | unclosed => cases h
  | slot offset body => exact ofPiece_slot.mpr ((ofPiece_slot.mp h).outline hreg)

end Part

namespace Recipe

/-- The machine registers that the instruction reads. -/
def fixedReads (r : Recipe) : List Reg := r.parts.filterMap (Part.fixed? Access.reads) ++ r.uses

/-- The machine registers that the instruction writes. -/
def fixedWrites (r : Recipe) : List Reg := r.parts.filterMap (Part.fixed? Access.writes) ++ r.defs

/-- The recipe with its registers known by name only. -/
def outline (r : Recipe) : Recipe :=
  { r with
    parts := r.parts.map Part.outline
    uses := r.uses.map fun q => .named q.name
    defs := r.defs.map fun q => .named q.name }

/-- Whether the recipe fits what the pattern matches and names only the given registers. -/
def suits (names : List String) (p : Node) (r : Recipe) : Bool :=
  r.parts.all (Part.suits p) &&
    (r.fixedReads ++ r.fixedWrites).all (fun q => names.contains q.name) &&
    (!r.isBranch || p.head.isBranch || p.head = .jump) && (!r.isCall || p.head = .call) &&
    (r.parts.any (· = .label) || p.head ≠ .place)

/-- Whether the instruction names no register of the machine, makes no value and does not read the
first leaf. -/
def copies (r : Recipe) : Bool :=
  r.fixedReads.isEmpty && r.fixedWrites.isEmpty && !r.makesValue &&
    r.parts.all fun p => p ≠ .leaf 0 .read && p ≠ .leaf 0 .update

/-- The names of the registers that the instructions read before they have written them. -/
def needs : List Recipe → List String
  | [] => []
  | r :: rest =>
    r.fixedReads.map Reg.name ++
      (needs rest).filter fun n => !(r.fixedWrites.map Reg.name).contains n

variable {reg? : String → Option Reg} {kinds : List LeafKind} {s : Skeleton} {r : Recipe}

theorem outline_parts (r : Recipe) : r.outline.parts = r.parts.map Part.outline := rfl

theorem map_name_filterMap_outline (use : Access → Bool) (parts : List Part) :
    ((parts.map Part.outline).filterMap (Part.fixed? use)).map Reg.name =
      (parts.filterMap (Part.fixed? use)).map Reg.name := by
  rw [map_filterMap, map_filterMap, filterMap_map]
  exact filterMap_congr fun p _ => Part.name_fixed?_outline use p

@[simp] theorem map_name_fixedReads_outline (r : Recipe) :
    r.outline.fixedReads.map Reg.name = r.fixedReads.map Reg.name := by
  rw [fixedReads, fixedReads, map_append, map_append, outline]
  dsimp only
  rw [map_name_filterMap_outline, map_map]
  rfl

@[simp] theorem map_name_fixedWrites_outline (r : Recipe) :
    r.outline.fixedWrites.map Reg.name = r.fixedWrites.map Reg.name := by
  rw [fixedWrites, fixedWrites, map_append, map_append, outline]
  dsimp only
  rw [map_name_filterMap_outline, map_map]
  rfl

@[simp] theorem makesValue_outline (r : Recipe) : r.outline.makesValue = r.makesValue := by
  simp [makesValue, outline, Function.comp_def]

@[simp] theorem copies_outline (r : Recipe) : r.outline.copies = r.copies := by
  have hempty (rs : List Reg) : rs.isEmpty = (rs.map Reg.name).isEmpty := by cases rs <;> rfl
  unfold copies
  rw [hempty, hempty r.outline.fixedWrites, map_name_fixedReads_outline,
    map_name_fixedWrites_outline, makesValue_outline, ← hempty, ← hempty]
  simp [outline, Function.comp_def, Part.outline_eq_leaf]

@[simp] theorem suits_outline (names : List String) (p : Node) (r : Recipe) :
    r.outline.suits names p = r.suits names p := by
  have hnames (rs : List Reg) : rs.all (fun q => names.contains q.name) =
      (rs.map Reg.name).all names.contains := by rw [all_map]; rfl
  unfold suits
  rw [hnames, hnames, map_append, map_append, map_name_fixedReads_outline,
    map_name_fixedWrites_outline]
  simp [outline, Function.comp_def, Part.outline_eq_label]

theorem needs_outline (rs : List Recipe) : needs (rs.map outline) = needs rs := by
  induction rs with
  | nil => rfl
  | cons r rs ih =>
    rw [map_cons, needs, needs, ih, map_name_fixedReads_outline, map_name_fixedWrites_outline]

theorem namedRegs_outline (hreg : ∀ n r, reg? n = some r → r.name = n) {names : List String}
    {rs : List Reg} (h : namedRegs reg? s names = .ok rs) :
    namedRegs (fun n => some (.named n)) s names = .ok (rs.map fun q => .named q.name) := by
  rw [namedRegs_eq_ok_iff] at h ⊢
  exact forall₂_map_right_iff.mpr (h.imp fun n r hr => by rw [hreg n r hr])

/-- What a skeleton is resolved to does not depend on where registers are found. -/
theorem outline_ofSkeleton (hreg : ∀ n r, reg? n = some r → r.name = n)
    (h : ofSkeleton reg? kinds s = .ok r) :
    ofSkeleton (fun n => some (.named n)) kinds s = .ok r.outline := by
  obtain ⟨parts, uses, defs, hparts, huses, hdefs, rfl⟩ := ofSkeleton_eq_ok_iff.mp h
  refine ofSkeleton_eq_ok_iff.mpr ⟨_, _, _, ?_, namedRegs_outline hreg huses,
    namedRegs_outline hreg hdefs, rfl⟩
  rw [mapM_eq_ok_iff] at hparts ⊢
  exact forall₂_map_right_iff.mpr (hparts.imp fun q p hp => Part.outline_ofPiece hreg hp)

/-- Every machine register of a recipe is found by its name. -/
theorem reg?_of_mem (hreg : ∀ n r, reg? n = some r → r.name = n)
    (h : ofSkeleton reg? kinds s = .ok r) {q : Reg} (hq : q ∈ r.fixedReads ++ r.fixedWrites) :
    reg? q.name = some q := by
  obtain ⟨parts, uses, defs, hparts, huses, hdefs, rfl⟩ := ofSkeleton_eq_ok_iff.mp h
  rw [mapM_eq_ok_iff] at hparts
  have hnamed {names : List String} {rs : List Reg} (h : namedRegs reg? s names = .ok rs) :
      ∀ q ∈ rs, reg? q.name = some q := by
    intro q hq
    obtain ⟨n, -, hn⟩ := exists_mem_of_forall₂ (namedRegs_eq_ok_iff.mp h) hq
    rwa [hreg n q hn]
  have hpart (use : Access → Bool) : ∀ q ∈ parts.filterMap (Part.fixed? use), reg? q.name = some q := by
    intro q hq
    obtain ⟨p, hp, hfix⟩ := mem_filterMap.mp hq
    obtain ⟨piece, -, hpiece⟩ := exists_mem_of_forall₂ hparts hp
    exact Part.reg?_of_fixed? hreg hpiece hfix
  simp only [fixedReads, fixedWrites, mem_append] at hq
  obtain (hq | hq) | hq | hq := hq
  · exact hpart _ q hq
  · exact hnamed huses q hq
  · exact hpart _ q hq
  · exact hnamed hdefs q hq

end Recipe

/-! ### Tidy templates -/

/-- Whether the node moves a register to a register. -/
def Node.isCopy : Node → Bool
  | .stmt (.move (.temp _) (.temp _)) => true
  | _ => false

/-- The recipes of a source with registers known by name only. -/
def TemplateSource.outline (src : TemplateSource) : List Recipe :=
  src.skeletons.filterMap fun s =>
    (Recipe.ofSkeleton (fun n => some (.named n)) src.pattern.leafKinds s).toOption

/-- Whether recipes fit what the pattern matches, name only the given registers, and read none of
these before they have written it, also if those that make a value are left out. -/
def isTidy (names : List String) (p : Node) (rs : List Recipe) : Bool :=
  rs.all (Recipe.suits names p) && (Recipe.needs rs).isEmpty &&
    (Recipe.needs (rs.filter (!·.makesValue))).isEmpty && p.leafKinds.length ≤ 3 &&
    (rs.length = 1 && rs.all (!·.makesValue) || p.head ≠ .place) &&
    (rs.all Recipe.copies && rs.any (·.parts.contains (.leaf 0 .write)) || !p.isCopy)

theorem isTidy_outline (names : List String) (p : Node) (rs : List Recipe) :
    isTidy names p (rs.map Recipe.outline) = isTidy names p rs := by
  simp [isTidy, filter_map, Function.comp_def, Recipe.needs_outline, Recipe.outline_parts,
    Part.outline_eq_leaf]

namespace Template

/-- The template names only the given registers, finds them by name, and reads none of them before
it has written it. -/
structure Tidy (reg? : String → Option Reg) (names : List String) (t : Template) : Prop where
  suits : ∀ r ∈ t.recipes, r.suits names t.pattern = true
  found : ∀ r ∈ t.recipes, ∀ q ∈ r.fixedReads ++ r.fixedWrites, reg? q.name = some q
  needs : ∀ dst, Recipe.needs (t.recipes.filter (Recipe.isKept dst)) = []
  leaves : t.pattern.leafKinds.length ≤ 3
  place : t.pattern.head = .place →
    t.recipes.length = 1 ∧ ∀ r ∈ t.recipes, r.makesValue = false
  copy : t.pattern.isCopy = true →
    (∀ r ∈ t.recipes, r.copies = true) ∧ ∃ r ∈ t.recipes, .leaf 0 .write ∈ r.parts

variable {reg? : String → Option Reg} {names : List String} {src : TemplateSource} {t : Template}

theorem outline_make (hreg : ∀ n r, reg? n = some r → r.name = n)
    (h : make reg? src.pattern src.skeletons src.wide = .ok t) :
    src.outline = t.recipes.map Recipe.outline := by
  obtain ⟨-, recipes, hrecipes, rfl⟩ := make_eq_ok_iff.mp h
  unfold TemplateSource.outline
  generalize src.skeletons = skeletons at hrecipes
  clear h
  dsimp only
  induction hrecipes with
  | nil => rfl
  | cons hr _ ih =>
    rw [filterMap_cons, Recipe.outline_ofSkeleton hreg hr, map_cons, ← ih]
    rfl

/-- A template is tidy if its source is, by names alone. -/
theorem tidy_of_isTidy (hreg : ∀ n r, reg? n = some r → r.name = n)
    (h : make reg? src.pattern src.skeletons src.wide = .ok t)
    (htidy : isTidy names src.pattern src.outline = true) : t.Tidy reg? names := by
  rw [outline_make hreg h, isTidy_outline] at htidy
  obtain ⟨-, recipes, hrecipes, rfl⟩ := make_eq_ok_iff.mp h
  simp only [isTidy, Bool.and_eq_true, all_eq_true, List.isEmpty_iff, Bool.or_eq_true,
    decide_eq_true_eq, Bool.not_eq_true', any_eq_true, contains_iff_mem] at htidy
  obtain ⟨⟨⟨⟨⟨hsuits, hneeds⟩, hneeds'⟩, hleaves⟩, hplace⟩, hcopy⟩ := htidy
  refine ⟨hsuits, fun r hr q hq => ?_, fun dst => ?_, hleaves,
    fun hp => hplace.resolve_right fun h => h hp,
    fun hp => hcopy.resolve_right fun h => Bool.false_ne_true (h.symm.trans hp)⟩
  · obtain ⟨skeleton, -, hskeleton⟩ := exists_mem_of_forall₂ hrecipes hr
    exact Recipe.reg?_of_mem hreg hskeleton hq
  · cases dst with
    | none =>
      rw [show Recipe.isKept none = (!·.makesValue) from funext fun r => by simp [Recipe.isKept]]
      exact hneeds'
    | some d =>
      rw [filter_eq_self.mpr fun r _ => by simp [Recipe.isKept]]
      exact hneeds

end Template

/-! ### Confined templates -/

/-- Whether the node moves to a register. -/
def Node.isMoveToReg : Node → Bool
  | .stmt (.move (.temp _) _) => true
  | _ => false

/-- Whether the part writes to no leaf but the register that a move goes to. -/
def Part.confined (p : Node) : Part → Bool
  | .leaf n access => !access.writes || n = 0 && p.isMoveToReg
  | _ => true

/-- Whether recipes write to no leaf but the register that a move goes to, branch without writing a
register, and copy a register by one move. -/
def isConfined (p : Node) (rs : List Recipe) : Bool :=
  rs.all (fun r => r.parts.all (Part.confined p) && (!r.isBranch || r.fixedWrites.isEmpty)) &&
    (rs.length = 1 && rs.all (fun r => r.isMove && r.parts.contains (.leaf 1 .read)) || !p.isCopy)

theorem isConfined_outline (p : Node) (rs : List Recipe) :
    isConfined p (rs.map Recipe.outline) = isConfined p rs := by
  have hempty (r : Recipe) : r.outline.fixedWrites.isEmpty = r.fixedWrites.isEmpty := by
    rw [← isEmpty_map (f := Reg.name), Recipe.map_name_fixedWrites_outline, isEmpty_map]
  have hpart (q : Part) : q.outline.confined p = q.confined p := by cases q <;> rfl
  have hbranch (r : Recipe) : r.outline.isBranch = r.isBranch := rfl
  have hmove (r : Recipe) : r.outline.isMove = r.isMove := rfl
  simp [isConfined, Function.comp_def, Recipe.outline_parts, Part.outline_eq_leaf, hempty, hpart,
    hbranch, hmove]

namespace Template

/-- The template writes to no leaf but the register that a move goes to, does not write a register
where it branches, and copies a register by one move. -/
structure Confined (t : Template) : Prop where
  leaf : ∀ r ∈ t.recipes, ∀ n access, .leaf n access ∈ r.parts → access.writes = true →
    n = 0 ∧ t.pattern.isMoveToReg = true
  branch : ∀ r ∈ t.recipes, r.isBranch = true → r.fixedWrites = []
  copy : t.pattern.isCopy = true → ∃ r, t.recipes = [r] ∧ r.isMove = true ∧ .leaf 1 .read ∈ r.parts

variable {reg? : String → Option Reg} {src : TemplateSource} {t : Template}

/-- A template is confined if its source is, by names alone. -/
theorem confined_of_isConfined (hreg : ∀ n r, reg? n = some r → r.name = n)
    (h : make reg? src.pattern src.skeletons src.wide = .ok t)
    (hconf : isConfined src.pattern src.outline = true) : t.Confined := by
  rw [outline_make hreg h, isConfined_outline] at hconf
  obtain ⟨-, recipes, -, rfl⟩ := make_eq_ok_iff.mp h
  simp only [isConfined, Bool.and_eq_true, all_eq_true, List.isEmpty_iff, Bool.or_eq_true,
    decide_eq_true_eq, Bool.not_eq_true', contains_iff_mem] at hconf
  obtain ⟨hall, hcopy⟩ := hconf
  refine ⟨fun r hr n access hp hw => ?_, fun r hr hb => ?_, fun hp => ?_⟩
  · have hleaf := (hall r hr).1 _ hp
    rw [Part.confined, hw, Bool.not_true, Bool.false_or, Bool.and_eq_true, decide_eq_true_eq] at hleaf
    exact hleaf
  · exact (hall r hr).2.resolve_left fun h => Bool.false_ne_true (h.symm.trans hb)
  · obtain ⟨hlen, hmove⟩ := hcopy.resolve_right fun h => Bool.false_ne_true (h.symm.trans hp)
    obtain ⟨r, rfl⟩ := length_eq_one_iff.mp hlen
    exact ⟨r, rfl, hmove r (mem_singleton_self r)⟩

end Template

/-! ### Texts as characters

Reading a text takes long where strings are computed with. So the characters of all texts are had first,
marks being put in character by character (`Skeleton.toList_marked`), and outlines are made from them. -/

theorem namedRegs_named (s : Skeleton) (names : List String) :
    namedRegs (fun n => some (.named n)) s names = .ok (names.map .named) :=
  namedRegs_eq_ok_iff.mpr (forall₂_map_right_iff.mpr (forall₂_same.mpr fun _ _ => rfl))

/-- The recipe of a skeleton with the given characters, with registers known by name only. -/
def Recipe.ofChars? (kinds : List LeafKind) (cs : List Char) (s : Skeleton) : Option Recipe :=
  match (Piece.scanText 0 [] cs).mapM (Part.ofPiece (fun n => some (.named n)) kinds) with
  | .ok parts => some
    { parts, uses := s.uses.map .named, defs := s.defs.map .named, isMove := s.isMove,
      isBranch := s.isBranch, isCall := s.isCall }
  | .error _ => none

theorem Recipe.toOption_ofSkeleton (kinds : List LeafKind) (s : Skeleton) :
    (ofSkeleton (fun n => some (.named n)) kinds s).toOption = ofChars? kinds s.text.toList s := by
  unfold ofSkeleton ofChars?
  rw [namedRegs_named, namedRegs_named, Piece.scan]
  cases (Piece.scanText 0 [] s.text.toList).mapM (Part.ofPiece (fun n => some (.named n)) kinds) <;> rfl

/-- The skeletons of a source with the characters of their texts. -/
def TemplateSource.chars (src : TemplateSource) : List (List Char × Skeleton) :=
  src.skeletons.map fun s => (s.text.toList, s)

/-- The recipes of skeletons with the given characters. -/
def outlineOf (kinds : List LeafKind) (texts : List (List Char × Skeleton)) : List Recipe :=
  texts.filterMap fun x => Recipe.ofChars? kinds x.1 x.2

theorem TemplateSource.outline_eq (src : TemplateSource) :
    src.outline = outlineOf src.pattern.leafKinds src.chars := by
  unfold outline outlineOf chars
  rw [filterMap_map]
  exact filterMap_congr fun s _ => Recipe.toOption_ofSkeleton _ s

/-- Whether a pattern and skeletons with the given characters are tidy and confined. -/
def isProper (names : List String) (x : Node × List (List Char × Skeleton)) : Bool :=
  isTidy names x.1 (outlineOf x.1.leafKinds x.2) && isConfined x.1 (outlineOf x.1.leafKinds x.2)

theorem isTidy_and_isConfined_of_isProper {names : List String} {list : List TemplateSource}
    (h : (list.map fun src => (src.pattern, src.chars)).all (isProper names) = true) :
    ∀ src ∈ list, isTidy names src.pattern src.outline = true ∧
      isConfined src.pattern src.outline = true := by
  intro src hsrc
  have hsrc' := all_eq_true.mp h _ (mem_map_of_mem hsrc)
  rw [isProper, Bool.and_eq_true] at hsrc'
  rwa [src.outline_eq]

end Codegen
