import Codegen.Proofs.Selection.Instance
import Codegen.Proofs.Spill.Patch
import Codegen.Proofs.Template.Registration

/-!
# How instructions are printed

The text of an instruction refers to its registers by numbered slots. If nothing else in it can be
taken for a slot (`Token.Legible`), it is printed as the skeleton with what stands in place of each
placeholder (`Token.print`): `fill_prints`. This stays so when a register is detached, with one fresh
register in its place.
-/

namespace Codegen

open List

namespace Assembly.Token

/-- What is printed for a token when registers are mapped. -/
def print (m : RegMap) : Token → List Char
  | .chr c => [c]
  | .reg r => (r.map fun r => (m.resolve r).text.toList).getD []
  | .int v => (wordText v).toList
  | .lab l => (Label.render l).toList

/-- What a token begins with in the text of an instruction: registers are slots there. -/
def shown : Token → List Char
  | .reg _ => ['&']
  | t => t.print .empty

/-- The token with a register in place of another. -/
def swap (q : Option Reg) (t : Reg) : Token → Token
  | .reg r => .reg (if r = q then some t else r)
  | tok => tok

/-- Nothing in the text can be taken for a slot, and no slot is followed by a digit. -/
structure Legible (ts : List Token) : Prop where
  chars : .chr '&' ∉ ts
  labels : ∀ l, .lab l ∈ ts → '&' ∉ (Label.render l).toList
  slots : ∀ r after, .reg r :: after <:+ ts →
    ∀ c, (after.flatMap shown).head? = some c → c.isDigit = false

variable {tok : Token} {ts : List Token}

theorem Legible.tail (h : Legible (tok :: ts)) : Legible ts where
  chars hc := h.chars (mem_cons_of_mem _ hc)
  labels l hl := h.labels l (mem_cons_of_mem _ hl)
  slots r after hts := h.slots r after (hts.trans (suffix_cons _ _))

theorem shown_swap (q : Option Reg) (t : Reg) (tok : Token) : (tok.swap q t).shown = tok.shown := by
  cases tok <;> rfl

theorem Legible.swap (h : Legible ts) (q : Option Reg) (t : Reg) : Legible (ts.map (swap q t)) where
  chars hc := by
    obtain ⟨tok, htok, heq⟩ := mem_map.mp hc
    cases tok with
    | chr c =>
      cases heq
      exact h.chars htok
    | reg | int | lab => cases heq
  labels l hl := by
    obtain ⟨tok, htok, heq⟩ := mem_map.mp hl
    cases tok with
    | lab l =>
      cases heq
      exact h.labels _ htok
    | chr | reg | int => cases heq
  slots r after hts := by
    obtain ⟨before, hts⟩ := hts
    obtain ⟨us, vs, rfl, -, hvs⟩ := map_eq_append_iff.mp hts.symm
    obtain ⟨tok, ws, rfl, htok, rfl⟩ := map_eq_cons_iff.mp hvs
    cases tok with
    | reg u =>
      rw [flatMap_map]
      simp only [shown_swap]
      exact h.slots u ws (suffix_append _ _)
    | chr | int | lab => cases htok

end Assembly.Token

open Assembly

/-! ### Texts with slots -/

namespace Written

variable {reads writes : List (Option Reg)} {ts : List Token} {cs : List Char}

/-- The same text is written for other registers in the same places. -/
theorem swap (h : Written reads writes ts cs) (q : Option Reg) (t : Reg) :
    Written (replaceReg q t reads) (replaceReg q t writes) (ts.map (Token.swap q t)) cs := by
  have hswap {list : List (Option Reg)} {n : Nat} {r : Reg} (hn : list[n]? = some (some r)) :
      ∃ r', Token.swap q t (.reg (some r)) = .reg (some r') ∧
        (replaceReg q t list)[n]? = some (some r') := by
    by_cases hr : some r = q
    · exact ⟨t, by simp [Token.swap, hr], by simp [replaceReg, hn, hr]⟩
    · exact ⟨r, by simp [Token.swap, hr], by simp [replaceReg, hn, hr]⟩
  induction h with
  | nil => exact .nil
  | chr c _ ih => exact .chr c ih
  | read hn _ ih =>
    obtain ⟨r', htok, hn'⟩ := hswap hn
    rw [map_cons, htok]
    exact .read hn' ih
  | write hn _ ih =>
    obtain ⟨r', htok, hn'⟩ := hswap hn
    rw [map_cons, htok]
    exact .write hn' ih
  | int v _ ih => exact .int v ih
  | lab l _ ih => exact .lab l ih

theorem head?_eq (h : Written reads writes ts cs) : cs.head? = (ts.flatMap Token.shown).head? := by
  induction h with
  | nil | chr | read | write => rfl
  | int v _ ih | lab l _ ih => rw [flatMap_cons, head?_append, ih, head?_append]; rfl

end Written

/-! ### Printing -/

namespace Instr

variable {i : Instr} {m : RegMap}

/-- Text without slots is printed as it stands. -/
theorem fill_append {w : List Char} (hw : '&' ∉ w) (cs : List Char) :
    i.fill m (w ++ cs) = (i.fill m cs).map (w ++ ·) := by
  induction w with
  | nil => simp
  | cons c w ih =>
    rw [mem_cons, not_or] at hw
    rw [cons_append, fill, ih hw.2, Option.map_map]
    · rfl
    · intro letter rest hc _
      exact hw.1 hc.symm

/-- A slot is printed as its register. -/
theorem fill_slot {letter : Char} {regs : List (Option Reg)} {n : Nat} {r : Reg} {cs : List Char}
    (hregs : i.slotRegs letter = some regs) (hn : regs[n]? = some (some r)) (hlt : n < 2 ^ 63)
    (hcs : ∀ c, cs.head? = some c → c.isDigit = false) :
    i.fill m ('&' :: letter :: ((toString n).toList ++ cs)) =
      (i.fill m cs).map ((m.resolve r).text.toList ++ ·) := by
  have hwrites := writes_toString n
  have hdigits := hwrites.2.1
  have hstop : cs.takeWhile Char.isDigit = [] ∧ cs.dropWhile Char.isDigit = cs := by
    cases cs with
    | nil => exact ⟨rfl, rfl⟩
    | cons c cs => simp [hcs c rfl]
  rw [fill, takeWhile_append_of_pos hdigits, dropWhile_append_of_pos hdigits, hstop.1,
    hstop.2, append_nil, hregs, hwrites.readNat? hlt]
  simp only [hn]

end Instr

theorem not_mem_wordText (v : Int64) : '&' ∉ (wordText v).toList := by
  have hdigit (n : Nat) : '&' ∉ n.repr.toList := fun h => by
    rw [← Nat.toString_eq_repr] at h
    exact absurd ((writes_toString n).2.1 _ h) (by decide)
  rw [wordText, Int.toString_eq_repr, Int.repr_eq_if]
  split
  · exact hdigit _
  · rw [String.toList_append, mem_append, not_or]
    exact ⟨by decide, hdigit _⟩

theorem Written.fill {reads writes : List (Option Reg)} {ts : List Token} {cs : List Char} {i : Instr}
    (h : Written reads writes ts cs) (hts : Token.Legible ts) (hr : reads <+: i.reads)
    (hw : writes <+: i.writes) (hlr : reads.length < 2 ^ 63) (hlw : writes.length < 2 ^ 63)
    (m : RegMap) : i.fill m cs = some (ts.flatMap (Token.print m)) := by
  induction h with
  | nil => rw [Instr.fill]; rfl
  | @chr ts cs c _ ih =>
    have hc : '&' ∉ [c] := by
      rintro (_ | ⟨_, ⟨⟩⟩)
      exact hts.chars mem_cons_self
    rw [← singleton_append, Instr.fill_append hc, ih hts.tail]
    rfl
  | @read ts cs n r hn h ih =>
    have hlt := (List.getElem?_eq_some_iff.mp hn).1
    rw [Instr.fill_slot rfl (Selection.getElem?_extended hr hn) (by omega), ih hts.tail]
    · rfl
    · rw [h.head?_eq]
      exact hts.slots _ _ suffix_rfl
  | @write ts cs n r hn h ih =>
    have hlt := (List.getElem?_eq_some_iff.mp hn).1
    rw [Instr.fill_slot rfl (Selection.getElem?_extended hw hn) (by omega), ih hts.tail]
    · rfl
    · rw [h.head?_eq]
      exact hts.slots _ _ suffix_rfl
  | int v _ ih =>
    rw [Instr.fill_append (not_mem_wordText v), ih hts.tail]
    rfl
  | lab l _ ih =>
    rw [Instr.fill_append (hts.labels l mem_cons_self), ih hts.tail]
    rfl

/-! ### Instructions -/

namespace Selection

variable {x : Node} {leaves : List Leaf} {dst : Option Reg} {used : List (Option Reg)}

/-- The text of the instruction is written for the tokens, with fewer slots than there are numbers. -/
def WrittenFor (i : Instr) (ts : List Token) : Prop :=
  ∃ reads writes, Written reads writes ts i.text.toList ∧ (reads <+: i.reads ∧ writes <+: i.writes) ∧
    reads.length < 2 ^ 63 ∧ writes.length < 2 ^ 63

/-- The instruction is printed as the tokens, whatever stands for the registers. -/
def PrintsAs (i : Instr) (ts : List Token) : Prop :=
  ∀ m, i.render m = some (String.ofList (ts.flatMap (Token.print m)))

variable {i : Instr} {ts : List Token}

theorem WrittenFor.printsAs (h : WrittenFor i ts) (hts : Token.Legible ts) : PrintsAs i ts := by
  obtain ⟨reads, writes, hwritten, ⟨hr, hw⟩, hlr, hlw⟩ := h
  intro m
  rw [Instr.render, hwritten.fill hts hr hw hlr hlw, Option.map_some]

theorem WrittenFor.replaceReg (h : WrittenFor i ts) (q : Option Reg) (t : Reg) :
    WrittenFor (i.replaceReg q t) (ts.map (Token.swap q t)) := by
  obtain ⟨reads, writes, hwritten, ⟨hr, hw⟩, hlr, hlw⟩ := h
  refine ⟨_, _, hwritten.swap q t, ⟨hr.map _, hw.map _⟩, ?_, ?_⟩
  · rwa [Codegen.replaceReg, length_map]
  · rwa [Codegen.replaceReg, length_map]

theorem instance?_writtenFor {r : Recipe} (h : instance? x leaves dst used r = .ok i)
    (hout : ∀ access, .out access ∈ r.parts → dst.isSome = true) (hlen : r.parts.length < 2 ^ 63) :
    ∃ ts, tokens? x leaves dst (r.parts.flatMap Part.symbols) = some ts ∧ WrittenFor i ts := by
  obtain ⟨ts, reads, writes, hts, hwritten, hregs, hreads, hwrites⟩ := instance?_written h hout
  exact ⟨ts, hts, reads, writes, hwritten, hregs, hreads.trans_lt hlen, hwrites.trans_lt hlen⟩

end Selection

/-! ### Skeletons -/

namespace Recipe.Resolves

variable {reg? : String → Option Reg} {kinds : List LeafKind} {s : Skeleton} {r : Recipe}

theorem symbols? (h : r.Resolves reg? kinds s) :
    Part.symbols? reg? kinds s.text.toList = some (r.parts.flatMap Part.symbols) := by
  rw [← h.source]
  exact Piece.symbols?_of_stands h.parts

/-- There are no more parts than characters. -/
theorem length_le (h : r.Resolves reg? kinds s) : r.parts.length ≤ s.text.length := by
  rw [← String.length_toList, ← h.source]
  have hparts := h.parts
  generalize Piece.scan s.text = pieces at hparts
  generalize r.parts = parts at hparts
  induction hparts with
  | nil => simp
  | @cons q p pieces parts hq _ ih =>
    have hpos : 0 < q.source.length := by
      cases hq with
      | text hne => exact length_pos_iff.mpr hne
      | slot => simp [Piece.source]
    rw [flatMap_cons, length_cons, length_append]
    omega

/-- What refers to the value writes it. -/
theorem makesValue (h : r.Resolves reg? kinds s) {access : Access} (hout : .out access ∈ r.parts) :
    r.makesValue = true := by
  refine any_eq_true.mpr ⟨_, hout, ?_⟩
  obtain ⟨q, -, hq⟩ := exists_mem_of_forall₂ h.parts hout
  cases hq with
  | slot _ hp =>
    cases hp with
    | out | updateOut => rfl

end Recipe.Resolves

/-! ### Detached registers -/

/-- When `q` is detached from code, the register `u` stands in for it at an instruction: it is
handed out for that instruction, loaded before it and stored behind it. -/
structure Code.StandsIn (q : Option Reg) (load store : Reg → Instr) (before : Code) (i : Instr)
    (after : Code) (s : Supply) (u : Reg) : Prop where
  code : ∃ s', (detach q load store (before ++ i :: after) s).1 = (detach q load store before s).1 ++
    ((if q ∈ i.reads then [load u] else []) ++ [i.replaceReg q u] ++
      if q ∈ i.writes then [store u] else []) ++ (detach q load store after s').1
  fresh : i.mentions q = true →
    (detach q load store before s).2.Made (detach q load store (before ++ [i]) s).2 u

theorem Instr.replaceReg_of_not_mentions {i : Instr} {q : Option Reg} (h : i.mentions q = false)
    (u : Reg) : i.replaceReg q u = i := by
  have hsame {list : List (Option Reg)} (hq : q ∉ list) : Codegen.replaceReg q u list = list := by
    refine (map_congr_left fun r hr => if_neg ?_).trans (map_id _)
    rintro rfl
    exact hq hr
  have hnot : q ∉ i.reads ∧ q ∉ i.writes := by
    rw [← not_or, ← Instr.mentions_iff, h]
    simp
  rw [Instr.replaceReg, hsame hnot.1, hsame hnot.2]

theorem Code.exists_standsIn (q : Option Reg) (load store : Reg → Instr) (before : Code) (i : Instr)
    (after : Code) (s : Supply) : ∃ u, Code.StandsIn q load store before i after s u := by
  refine ⟨(detach q load store before s).2.freshReg.1, ?_, fun hm => ?_⟩
  · rw [detach_append]
    generalize (detach q load store before s).2 = s₁
    cases hm : i.mentions q with
    | true =>
      have hcond : (i.reads.contains q || i.writes.contains q) = true := hm
      refine ⟨s₁.freshReg.2, ?_⟩
      rw [detach, if_pos hcond]
      simp only [contains_iff_mem, append_assoc]
    | false =>
      have hnot : q ∉ i.reads ∧ q ∉ i.writes := by
        rw [← not_or, ← Instr.mentions_iff, hm]
        simp
      refine ⟨s₁, ?_⟩
      rw [detach, if_neg (by simpa using hnot), Instr.replaceReg_of_not_mentions hm, if_neg hnot.1,
        if_neg hnot.2]
      simp
  · have hcond : (i.reads.contains q || i.writes.contains q) = true := hm
    rw [detach_append, detach, if_pos hcond]
    exact Supply.made_freshReg _

/-! ### Templates -/

namespace Selection

variable {x : Node} {leaves : List Leaf} {dst : Option Reg} {used : List (Option Reg)}
  {reg? : String → Option Reg} {kinds : List LeafKind} {s : Skeleton} {r : Recipe} {i : Instr}

/-- The characters of a skeleton with what stands in place of each placeholder. -/
def skeletonTokens? (reg? : String → Option Reg) (kinds : List LeafKind) (x : Node)
    (leaves : List Leaf) (dst : Option Reg) (s : Skeleton) : Option (List Token) :=
  (Part.symbols? reg? kinds s.text.toList).bind (tokens? x leaves dst)

theorem writtenFor_of_resolves (hr : r.Resolves reg? kinds s) (hlen : s.text.length < 2 ^ 63)
    (hkept : r.isKept dst = true) (hi : instance? x leaves dst used r = .ok i) :
    ∃ ts, skeletonTokens? reg? kinds x leaves dst s = some ts ∧ WrittenFor i ts := by
  rw [skeletonTokens?, hr.symbols?, Option.bind_some]
  refine instance?_writtenFor hi (fun access hout => ?_) (hr.length_le.trans_lt hlen)
  rw [Recipe.isKept, hr.makesValue hout] at hkept
  simpa [Option.isSome_iff_ne_none] using hkept

/-- The instructions that filling in emits come from the recipes that are kept. -/
theorem fill_forall₂ {skeletons : List Skeleton} {recipes : List Recipe} {t : Template}
    {st st' : State} {R : Skeleton → Recipe → Prop} (h : List.Forall₂ R skeletons recipes)
    (hfill : fill x t leaves dst used recipes st = .ok () st') :
    ∃ code, st'.code = st.code ++ code ∧ List.Forall₂ (fun p i =>
        (R p.1 p.2 ∧ p.2.isKept dst = true) ∧ instance? x leaves dst used p.2 = .ok i)
      ((skeletons.zip recipes).filter fun p => p.2.isKept dst) code := by
  obtain ⟨code, hcode, rfl⟩ := fill_eq_ok_iff.mp hfill
  refine ⟨code, rfl, ?_⟩
  clear hfill
  induction h generalizing code with
  | nil =>
    cases hcode
    exact .nil
  | @cons s r skeletons recipes hr _ ih =>
    rw [zip_cons_cons]
    by_cases hkept : r.isKept dst = true
    · rw [filter_cons_of_pos hkept] at hcode
      obtain ⟨i, code, hi, hrest, rfl⟩ := forall₂_cons_left_iff.mp hcode
      rw [filter_cons_of_pos (by exact hkept)]
      exact .cons ⟨⟨hr, hkept⟩, hi⟩ (ih code hrest)
    · rw [filter_cons_of_neg hkept] at hcode
      rw [filter_cons_of_neg (by exact hkept)]
      exact ih code hcode

/-- An instruction of a template is printed as its skeleton, with what stands in place of each
placeholder, if nothing in it can be taken for a slot. If a register is detached from code that
contains the instruction, the same is printed there with one fresh register in its place. Slots are
numbered by words, and a text of less than `2 ^ 63` characters has no more slots than that. -/
theorem fill_prints {pattern : Node} {skeletons : List Skeleton} {wide : Bool} {t : Template}
    (ht : Template.make reg? pattern skeletons wide = .ok t)
    (hlen : ∀ s ∈ skeletons, s.text.length < 2 ^ 63) {st st' : State}
    (hfill : fill x t leaves dst used t.recipes st = .ok () st') :
    ∃ code, st'.code = st.code ++ code ∧ List.Forall₂ (fun p i =>
        ∃ ts, skeletonTokens? reg? pattern.leafKinds x leaves dst p.1 = some ts ∧
          (Token.Legible ts → PrintsAs i ts ∧ ∀ q load store before after s,
            ∃ u, Code.StandsIn q load store before i after s u ∧
              PrintsAs (i.replaceReg q u) (ts.map (Token.swap q u))))
      ((skeletons.zip t.recipes).filter fun p => p.2.isKept dst) code := by
  obtain ⟨-, recipes, hrecipes, rfl⟩ := Template.make_eq_ok_iff.mp ht
  have hresolves : List.Forall₂ (fun s r => s ∈ skeletons ∧ r.Resolves reg? pattern.leafKinds s)
      skeletons recipes :=
    (forall₂_and_left _ _).mpr
      ⟨fun s hs => hs, hrecipes.imp fun s r => Recipe.resolves_of_ofSkeleton⟩
  obtain ⟨code, hcode, hall⟩ := fill_forall₂ hresolves hfill
  refine ⟨code, hcode, hall.imp ?_⟩
  rintro ⟨s, r⟩ i ⟨⟨⟨hs, hr⟩, hkept⟩, hi⟩
  obtain ⟨ts, hts, hwritten⟩ := writtenFor_of_resolves hr (hlen s hs) hkept hi
  refine ⟨ts, hts, fun hlegible => ⟨hwritten.printsAs hlegible, fun q load store before after s => ?_⟩⟩
  obtain ⟨u, hu⟩ := Code.exists_standsIn q load store before i after s
  exact ⟨u, hu, (hwritten.replaceReg q u).printsAs (hlegible.swap q u)⟩

/-- An address computed from a constant and a register. -/
def lea : Skeleton := { text := "lea \x7b1\x7d(\x7b0\x7d), \x7bout\x7d" }

/-- A register with a constant added to it. -/
def plus (r : Option Reg) (v : Int64) : Node := .expr (.bin .add (.temp r) (.int v) 0)

/-- What the skeleton says of two registers and a constant. -/
def leaTokens (a d : Reg) : List Token :=
  [.chr 'l', .chr 'e', .chr 'a', .chr ' ', .int (-8), .chr '(', .reg (some a), .chr ')', .chr ',',
    .chr ' ', .reg (some d)]

theorem legible_leaTokens (a d : Reg) : Token.Legible (leaTokens a d) where
  chars := by simp [leaTokens]
  labels := by simp [leaTokens]
  slots := by
    intro r after hafter c hc
    simp only [leaTokens, suffix_cons_iff, List.cons.injEq, Token.reg.injEq, reduceCtorEq,
      false_and, false_or, suffix_nil, or_false] at hafter
    obtain ⟨rfl, rfl⟩ | ⟨rfl, rfl⟩ := hafter
    · cases hc
      rfl
    · cases hc

theorem skeletonTokens?_lea (a d : Reg) : skeletonTokens? (fun _ => none) (plus none 0).leafKinds
    (plus (some a) (-8)) [.temp (some a), .int (-8)] (some d) lea = some (leaTokens a d) := rfl

/-- The instruction can be filled in. -/
theorem exists_fill_lea (a d : Reg) : ∃ t st',
    Template.make (fun _ => none) (plus none 0) [lea] false = .ok t ∧
      fill (plus (some a) (-8)) t [.temp (some a), .int (-8)] (some d) [] t.recipes {} =
        .ok () st' := by
  obtain ⟨t, ht⟩ : ∃ t, Template.make (fun _ => none) (plus none 0) [lea] false = .ok t := ⟨_, rfl⟩
  obtain ⟨-, recipes, hrecipes, rfl⟩ := Template.make_eq_ok_iff.mp ht
  obtain ⟨r, _, hr, hnil, rfl⟩ := forall₂_cons_left_iff.mp hrecipes
  cases hnil
  obtain ⟨ss, hss, htokens⟩ := Option.bind_eq_some_iff.mp (skeletonTokens?_lea a d)
  rw [← Recipe.symbols_eq hss hr] at htokens
  obtain ⟨_, _, _, -, -, -, rfl⟩ := Recipe.ofSkeleton_eq_ok_iff.mp hr
  obtain ⟨i, hi, -⟩ := instance?_spells [] htokens rfl
  exact ⟨_, _, ht, fill_eq (.cons ⟨by simp [Recipe.isKept], hi⟩ .nil) {}⟩

/-- Before and after the first register is detached. -/
theorem lea_prints : ∃ t st', Template.make (fun _ => none) (plus none 0) [lea] false = .ok t ∧
    (∀ s ∈ [lea], s.text.length < 2 ^ 63) ∧
    fill (plus (some ⟨0, 0, "a"⟩) (-8)) t [.temp (some ⟨0, 0, "a"⟩), .int (-8)] (some ⟨0, 1, "d"⟩) []
      t.recipes {} = .ok () st' ∧
    ∃ i, st'.code = [i] ∧ i.render .empty = some "lea -8(a), d" ∧ ∀ load store,
      ∃ u, Code.StandsIn (some ⟨0, 0, "a"⟩) load store [] i [] {} u ∧
        (i.replaceReg (some ⟨0, 0, "a"⟩) u).render .empty =
          some (String.ofList ("lea -8(".toList ++ u.text.toList ++ "), d".toList)) := by
  obtain ⟨t, st', ht, hfill⟩ := exists_fill_lea ⟨0, 0, "a"⟩ ⟨0, 1, "d"⟩
  have hlen : ∀ s ∈ [lea], s.text.length < 2 ^ 63 := by decide
  refine ⟨t, st', ht, hlen, hfill, ?_⟩
  obtain ⟨code, hcode, hall⟩ := fill_prints ht hlen hfill
  obtain ⟨-, recipes, hrecipes, rfl⟩ := Template.make_eq_ok_iff.mp ht
  obtain ⟨r, _, -, hnil, rfl⟩ := forall₂_cons_left_iff.mp hrecipes
  cases hnil
  rw [zip_cons_cons, filter_cons_of_pos (by simp [Recipe.isKept])] at hall
  obtain ⟨i, _, ⟨ts, hts, hprints⟩, hnil, rfl⟩ := forall₂_cons_left_iff.mp hall
  cases hnil
  rw [skeletonTokens?_lea] at hts
  cases hts
  obtain ⟨hi, hdetach⟩ := hprints (legible_leaTokens _ _)
  refine ⟨i, hcode, (hi .empty).trans rfl, fun load store => ?_⟩
  obtain ⟨u, hu, hprints⟩ := hdetach (some ⟨0, 0, "a"⟩) load store [] [] {}
  exact ⟨u, hu, (hprints .empty).trans rfl⟩

end Selection

end Codegen
