import Codegen.Proofs.Except
import Codegen.Proofs.Template.Placeholder
import Codegen.Target.Basic

/-!
# Skeletons, character by character

The text of a skeleton as a list of characters and holes (`Part.Symbol`). Texts are read so from left
to right (`Part.symbols?`), and the parts of the recipe are the same characters and holes
(`Recipe.symbols_eq`).
-/

namespace Codegen

open List

namespace Skeleton

/-- The brace that a mark stands for. -/
def mark (c : Char) : Char :=
  if c = '‹' then '\x7b' else if c = '›' then '\x7d' else c

theorem toList_marked (s : String) : (marked s).toList = s.toList.map mark := by
  rw [marked, String.toList_map]
  rfl

end Skeleton

namespace Part

/-- A character of a skeleton or a hole in it. -/
inductive Symbol
  | chr (c : Char)
  | hole (p : Part)
deriving DecidableEq, Repr

/-- A part as characters and holes. -/
def symbols : Part → List Symbol
  | .text s => s.toList.map .chr
  | p => [.hole p]

section

variable (reg? : String → Option Reg) (kinds : List LeafKind)

mutual

/-- Read a text outside of a placeholder. -/
def symbols? : List Char → Option (List Symbol)
  | [] => some []
  | c :: cs =>
    if c = '\x7b' then holeSymbols? [] cs
    else if c = '\x7d' then none
    else (symbols? cs).map (.chr c :: ·)

/-- Read a text inside of a placeholder, of which the given characters were seen. -/
def holeSymbols? (seen : List Char) : List Char → Option (List Symbol)
  | [] => none
  | c :: cs =>
    if c = '\x7d' then
      match ofPlaceholder reg? kinds seen.reverse with
      | .ok p => (symbols? cs).map (.hole p :: ·)
      | .error _ => none
    else holeSymbols? (c :: seen) cs

end

end

variable {reg? : String → Option Reg} {kinds : List LeafKind} {cs : List Char} {ss : List Symbol}

/-- Text without braces is read as it stands. -/
theorem symbols?_append {word : List Char} (hw : ∀ c ∈ word, c ≠ '\x7b' ∧ c ≠ '\x7d') :
    symbols? reg? kinds (word ++ cs) = (symbols? reg? kinds cs).map (word.map .chr ++ ·) := by
  induction word with
  | nil => simp
  | cons c word ih =>
    obtain ⟨h1, h2⟩ := hw c mem_cons_self
    rw [cons_append, symbols?, if_neg h1, if_neg h2,
      ih fun c hc => hw c (mem_cons_of_mem _ hc), Option.map_map]
    rfl

theorem holeSymbols?_append {seen body : List Char} {p : Part} (hb : ∀ c ∈ body, c ≠ '\x7d')
    (hp : ofPlaceholder reg? kinds (seen.reverse ++ body) = .ok p) :
    holeSymbols? reg? kinds seen (body ++ '\x7d' :: cs) =
      (symbols? reg? kinds cs).map (.hole p :: ·) := by
  induction body generalizing seen with
  | nil =>
    rw [append_nil] at hp
    rw [nil_append, holeSymbols?, if_pos rfl, hp]
  | cons c body ih =>
    rw [cons_append, holeSymbols?, if_neg (hb c mem_cons_self)]
    refine ih (fun c hc => hb c (mem_cons_of_mem _ hc)) ?_
    rwa [reverse_cons, append_assoc]

/-- A placeholder is read as what it stands for. -/
theorem symbols?_hole {body : List Char} {p : Part} (hb : ∀ c ∈ body, c ≠ '\x7d')
    (hp : ofPlaceholder reg? kinds body = .ok p) :
    symbols? reg? kinds ('\x7b' :: body ++ '\x7d' :: cs) =
      (symbols? reg? kinds cs).map (.hole p :: ·) := by
  rw [cons_append, symbols?, if_pos rfl]
  exact holeSymbols?_append hb hp

/-- The name of an instruction, without marks and blanks. -/
def IsName (name : String) : Prop :=
  ∀ c ∈ name.toList, c ≠ ' ' ∧ c ≠ '\x7b' ∧ c ≠ '\x7d' ∧ Skeleton.mark c = c

/-- A name in front of a text is read as it stands. -/
theorem symbols?_named {name : String} (hname : IsName name) (cs : List Char) :
    symbols? reg? kinds ((name ++ String.ofList cs).toList.map Skeleton.mark) =
      (symbols? reg? kinds (cs.map Skeleton.mark)).map (name.toList.map .chr ++ ·) := by
  have hmark : name.toList.map Skeleton.mark = name.toList :=
    (map_congr_left fun c hc => (hname c hc).2.2.2).trans (map_id _)
  rw [String.toList_append, String.toList_ofList, map_append, hmark,
    symbols?_append fun c hc => ⟨(hname c hc).2.1, (hname c hc).2.2.1⟩]

/-- A text with two placeholders, the second one at its end. -/
theorem symbols?_two (w b w' b' : List Char) {p p' : Part}
    (hcs : cs = w ++ ('\x7b' :: b ++ '\x7d' :: (w' ++ ('\x7b' :: b' ++ ['\x7d']))))
    (hw : ∀ c ∈ w ++ w', c ≠ '\x7b' ∧ c ≠ '\x7d') (hb : ∀ c ∈ b ++ b', c ≠ '\x7d')
    (hp : ofPlaceholder reg? kinds b = .ok p) (hp' : ofPlaceholder reg? kinds b' = .ok p') :
    symbols? reg? kinds cs = some (w.map .chr ++ .hole p :: (w'.map .chr ++ [.hole p'])) := by
  rw [forall_mem_append] at hw hb
  rw [hcs, symbols?_append hw.1, symbols?_hole hb.1 hp, symbols?_append hw.2, symbols?_hole hb.2 hp']
  rfl

theorem fixedReg_of_eq {name : List Char} {r : Reg} (h : reg? (String.ofList name) = some r)
    (access : Access) : fixedReg reg? name access = .ok (.fixed r access) := by
  rw [fixedReg, h]

/-- A placeholder always stands for a hole. -/
theorem symbols_ofPlaceholder {body : List Char} {p : Part}
    (h : ofPlaceholder reg? kinds body = .ok p) : p.symbols = [.hole p] := by
  cases ofPlaceholder_eq_ok_iff.mp h <;> rfl

/-- The characters seen so far, as parts. -/
theorem symbols_ofReversed (reg? : String → Option Reg) (kinds : List LeafKind) (acc : List Char) :
    ∃ parts,
    (Piece.ofReversed acc).mapM (ofPiece reg? kinds) = .ok parts ∧
      parts.flatMap symbols = acc.reverse.map .chr := by
  cases acc with
  | nil => exact ⟨[], rfl, rfl⟩
  | cons c acc =>
    refine ⟨[.text (String.ofList (c :: acc).reverse)], rfl, ?_⟩
    rw [flatMap_singleton, symbols, String.toList_ofList]

theorem mapM_append_ok {α β ε : Type} {f : α → Except ε β} {xs ys : List α} {us vs : List β}
    (hx : xs.mapM f = .ok us) (hy : ys.mapM f = .ok vs) : (xs ++ ys).mapM f = .ok (us ++ vs) := by
  rw [mapM_append, hx, hy]
  rfl

mutual

/-- What is read as characters and holes is cut into parts with those. -/
theorem scanText_symbols {cs : List Char} {ss : List Symbol}
    (h : symbols? reg? kinds cs = some ss) (offset : Nat) (acc : List Char) : ∃ parts,
      (Piece.scanText offset acc cs).mapM (ofPiece reg? kinds) = .ok parts ∧
        parts.flatMap symbols = acc.reverse.map .chr ++ ss := by
  cases cs with
  | nil =>
    cases h
    obtain ⟨parts, h1, h2⟩ := symbols_ofReversed reg? kinds acc
    exact ⟨parts, h1, by rw [h2, append_nil]⟩
  | cons c cs =>
    rw [symbols?] at h
    rw [Piece.scanText]
    split at h
    · rename_i hc
      rw [if_pos hc]
      obtain ⟨parts, h1, h2⟩ := symbols_ofReversed reg? kinds acc
      obtain ⟨parts', h3, h4⟩ := scanSlot_symbols h offset (offset + 1)
      exact ⟨parts ++ parts', mapM_append_ok h1 h3, by rw [flatMap_append, h2, h4]⟩
    · rename_i ho
      split at h
      · cases h
      · rename_i hc
        rw [if_neg ho, if_neg hc]
        obtain ⟨ss', h', rfl⟩ := Option.map_eq_some_iff.mp h
        obtain ⟨parts, h1, h2⟩ := scanText_symbols h' (offset + c.utf8Size) (c :: acc)
        exact ⟨parts, h1, by rw [h2, reverse_cons, map_append, append_assoc]; rfl⟩

theorem scanSlot_symbols {seen cs : List Char} {ss : List Symbol}
    (h : holeSymbols? reg? kinds seen cs = some ss) (start offset : Nat) : ∃ parts,
      (Piece.scanSlot start offset seen cs).mapM (ofPiece reg? kinds) = .ok parts ∧
        parts.flatMap symbols = ss := by
  cases cs with
  | nil => cases h
  | cons c cs =>
    rw [holeSymbols?] at h
    rw [Piece.scanSlot]
    split at h
    · rename_i hc
      rw [if_pos hc]
      split at h
      · rename_i p hp
        obtain ⟨ss', h', rfl⟩ := Option.map_eq_some_iff.mp h
        obtain ⟨parts, h1, h2⟩ := scanText_symbols h' (offset + 1) []
        refine ⟨p :: parts, ?_, ?_⟩
        · rw [mapM_cons, h1, ofPiece, hp]
          rfl
        · rw [flatMap_cons, h2, symbols_ofPlaceholder hp]
          rfl
      · cases h
    · rename_i hc
      rw [if_neg hc]
      exact scanSlot_symbols h start (offset + c.utf8Size)

end

end Part

/-- The registers with the given names, one for each. -/
theorem namedRegs_eq_ok_iff {reg? : String → Option Reg} {s : Skeleton} {names : List String}
    {rs : List Reg} :
    namedRegs reg? s names = .ok rs ↔ List.Forall₂ (fun n r => reg? n = some r) names rs := by
  induction names generalizing rs with
  | nil =>
    rw [namedRegs, forall₂_nil_left_iff]
    exact ⟨fun h => (Except.ok.inj h).symm, fun h => h ▸ rfl⟩
  | cons n names ih =>
    rw [namedRegs, forall₂_cons_left_iff]
    cases reg? n with
    | none => simp
    | some r =>
      simp only [bind_eq_ok_iff, ih, Option.some.injEq]
      constructor
      · rintro ⟨rs, hrs, ⟨⟩⟩
        exact ⟨r, rs, rfl, hrs, rfl⟩
      · rintro ⟨_, rs, rfl, hrs, rfl⟩
        exact ⟨rs, hrs, rfl⟩

namespace Recipe

variable {reg? : String → Option Reg} {kinds : List LeafKind} {s : Skeleton}
  {ss : List Part.Symbol} {r : Recipe}

theorem ofSkeleton_eq_ok_iff : ofSkeleton reg? kinds s = .ok r ↔ ∃ parts uses defs,
    (Piece.scan s.text).mapM (Part.ofPiece reg? kinds) = .ok parts ∧
      namedRegs reg? s s.uses = .ok uses ∧ namedRegs reg? s s.defs = .ok defs ∧
      r = { parts, uses, defs, isMove := s.isMove, isBranch := s.isBranch, isCall := s.isCall } := by
  unfold ofSkeleton
  constructor
  · intro h
    split at h
    · simp only [bind_eq_ok_iff] at h
      obtain ⟨_, ⟨⟩, uses, hu, defs, hd, ⟨⟩⟩ := h
      exact ⟨_, uses, defs, ‹_›, hu, hd, rfl⟩
    · cases h
  · rintro ⟨parts, uses, defs, hp, hu, hd, rfl⟩
    rw [hp, hu, hd]
    rfl

/-- The recipe of a skeleton has the characters and holes that the text is read as. -/
theorem symbols_eq (h : Part.symbols? reg? kinds s.text.toList = some ss)
    (hr : ofSkeleton reg? kinds s = .ok r) : r.parts.flatMap Part.symbols = ss := by
  obtain ⟨parts, h1, h2⟩ := Part.scanText_symbols h 0 []
  obtain ⟨parts', _, _, h3, -, -, rfl⟩ := ofSkeleton_eq_ok_iff.mp hr
  rw [Piece.scan, h1] at h3
  cases h3
  exact h2

/-- A skeleton can be resolved if its text can be read and its registers are known. -/
theorem exists_ofSkeleton (h : Part.symbols? reg? kinds s.text.toList = some ss)
    (hregs : ∀ n ∈ s.uses ++ s.defs, ∃ r, reg? n = some r) : ∃ r, ofSkeleton reg? kinds s = .ok r := by
  rw [forall_mem_append] at hregs
  obtain ⟨parts, hparts, -⟩ := Part.scanText_symbols h 0 []
  obtain ⟨uses, huses⟩ := exists_forall₂_iff.mpr hregs.1
  obtain ⟨defs, hdefs⟩ := exists_forall₂_iff.mpr hregs.2
  exact ⟨_, ofSkeleton_eq_ok_iff.mpr ⟨parts, uses, defs, hparts, namedRegs_eq_ok_iff.mpr huses,
    namedRegs_eq_ok_iff.mpr hdefs, rfl⟩⟩

end Recipe

namespace Template

variable {reg? : String → Option Reg} {pattern : Node} {skeletons : List Skeleton} {wide : Bool}
  {t : Template}

theorem make_eq_ok_iff : make reg? pattern skeletons wide = .ok t ↔
    pattern.checkPattern = .ok () ∧ ∃ recipes, List.Forall₂ (fun s r =>
      Recipe.ofSkeleton reg? pattern.leafKinds s = .ok r) skeletons recipes ∧
        t = { pattern, skeletons, wide, recipes } := by
  rw [← exists_congr fun recipes => and_congr_left fun _ => mapM_eq_ok_iff]
  unfold make
  cases pattern.checkPattern with
  | error e => exact iff_of_false nofun nofun
  | ok u =>
    cases skeletons.mapM (Recipe.ofSkeleton reg? pattern.leafKinds) with
    | error e => exact iff_of_false nofun (by simp)
    | ok recipes =>
      constructor
      · rintro ⟨⟩
        exact ⟨rfl, recipes, rfl, rfl⟩
      · rintro ⟨-, _, ⟨⟩, rfl⟩
        rfl

end Template

/-! ### Values -/

/-- Whether a piece stands for the value that a template makes. -/
def Piece.makesValue : Piece → Bool
  | .slot _ body => body = "out".toList || body = "+out".toList
  | _ => false

theorem Part.makesValue_ofPiece {reg? : String → Option Reg} {kinds : List LeafKind} {q : Piece}
    {p : Part} (h : ofPiece reg? kinds q = .ok p) : p.makesValue = q.makesValue := by
  cases q with
  | text cs =>
    cases h
    rfl
  | strayClose | unclosed => cases h
  | slot offset body =>
    rw [Piece.makesValue]
    cases ofPiece_slot.mp h with
    | out | updateOut | onTrue | onFalse | label => rfl
    | readReg | writeReg => simp [makesValue]
    | readLeaf hsign hn =>
      have hout := ne_cons_of_readInt? hn (c := 'o') (by decide) ['u', 't']
      have hplus : ∀ cs, body ≠ '+' :: cs := by
        rintro cs rfl
        exact hsign rfl
      simp [makesValue, hout, hplus]
    | writeLeaf => simp [makesValue]
    | updateLeaf hn =>
      have hout := ne_cons_of_readInt? hn (c := 'o') (by decide) ['u', 't']
      simp [makesValue, hout]

namespace Recipe

/-- Whether the instruction of a skeleton makes the value of its template. -/
theorem makesValue_ofSkeleton {reg? : String → Option Reg} {kinds : List LeafKind} {s : Skeleton}
    {r : Recipe} (h : ofSkeleton reg? kinds s = .ok r) :
    r.makesValue = (Piece.scan s.text).any Piece.makesValue := by
  obtain ⟨parts, uses, defs, hparts, -, -, rfl⟩ := ofSkeleton_eq_ok_iff.mp h
  rw [mapM_eq_ok_iff] at hparts
  clear h
  rw [makesValue]
  generalize Piece.scan s.text = pieces at hparts
  dsimp only
  induction hparts with
  | nil => rfl
  | cons hp _ ih => rw [any_cons, any_cons, ih, Part.makesValue_ofPiece hp]

end Recipe

end Codegen
