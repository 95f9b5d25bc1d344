import Codegen.Proofs.Selection.Skeleton
import Mathlib.Data.List.Forall2
import Mathlib.Tactic.SplitIfs

/-!
# How templates are written

The trees that are patterns (`Node.IsPattern`) and the pieces of a text: literals without braces, and
placeholders (`Piece.Stands`). Checking a pattern
accepts exactly the patterns (`Node.checkPattern_eq_ok_iff`), and resolving a text succeeds exactly
for the texts put together from such pieces (`Piece.exists_parts_iff`). What a text is cut into are
then its literals and placeholders, and together they are the text (`Piece.stands_scan`).
-/

namespace Codegen

open List

/-! ### Patterns -/

/-- What may stand inside of a pattern. -/
inductive Expr.IsOperand : Expr → Prop
  | int (v : Int64) : IsOperand (.int v)
  | addr (l : Option Label) : IsOperand (.addr l)
  | temp (r : Option Reg) : IsOperand (.temp r)
  | bin {op : Op} {l r : Expr} {pos : Int} (hop : op.isKnown = true) (hl : IsOperand l)
      (hr : IsOperand r) : IsOperand (.bin op l r pos)
  | mem {a : Expr} (ha : IsOperand a) : IsOperand (.mem a)

/-- A pattern: an operand, or one of the nodes that only a root may be. -/
inductive Node.IsPattern : Node → Prop
  | operand {e : Expr} (h : e.IsOperand) : IsPattern (.expr e)
  | call {f link : Expr} {args : List Expr} (hf : f.IsOperand) : IsPattern (.expr (.call f args link))
  | place (l : Option Label) : IsPattern (.stmt (.place l))
  | moveTemp {r : Option Reg} {s : Expr} (hs : s.IsOperand) : IsPattern (.stmt (.move (.temp r) s))
  | moveMem {a s : Expr} (ha : a.IsOperand) (hs : s.IsOperand) : IsPattern (.stmt (.move (.mem a) s))
  | jump {d : Expr} {targets : List (Option Label)} (hd : d.IsOperand) :
      IsPattern (.stmt (.jump d targets))
  | cjump {c : Cond} {l r : Expr} {t f : Option Label} (hc : c.isKnown = true) (hl : l.IsOperand)
      (hr : r.IsOperand) : IsPattern (.stmt (.cjump c l r t f))

theorem check_eq_ok_iff {ε : Type} {b : Bool} {why : ε} {x y : Except ε Unit} :
    (do
      if !b then throw why
      x
      y) = .ok () ↔ b = true ∧ x = .ok () ∧ y = .ok () := by
  cases b with
  | false => simp [throw, throwThe, MonadExceptOf.throw, bind, Except.bind]
  | true => cases x <;> simp [bind, Except.bind]

namespace Expr

theorem isOperand_bin {op : Op} {l r : Expr} {pos : Int} :
    (bin op l r pos).IsOperand ↔ op.isKnown = true ∧ l.IsOperand ∧ r.IsOperand := by
  constructor
  · rintro (_ | _ | _ | ⟨hop, hl, hr⟩ | _)
    exact ⟨hop, hl, hr⟩
  · rintro ⟨hop, hl, hr⟩
    exact .bin hop hl hr

theorem isOperand_mem {a : Expr} : (mem a).IsOperand ↔ a.IsOperand := by
  constructor
  · rintro (_ | _ | _ | _ | ha)
    exact ha
  · exact .mem

theorem checkNested_eq_ok_iff {e : Expr} : e.checkNested = .ok () ↔ e.IsOperand := by
  cases e with
  | int v => exact iff_of_true rfl (.int v)
  | addr l => exact iff_of_true rfl (.addr l)
  | temp r => exact iff_of_true rfl (.temp r)
  | bin op l r pos =>
    rw [isOperand_bin, ← l.checkNested_eq_ok_iff, ← r.checkNested_eq_ok_iff, ← check_eq_ok_iff]
    rfl
  | mem a => rw [isOperand_mem, ← a.checkNested_eq_ok_iff, checkNested]
  | missing | call | eseq => exact iff_of_false (by rintro ⟨⟩) (by rintro ⟨⟩)

/-- Below the root a destination is checked like any operand. -/
theorem isOperand_iff_of_isPlace {d : Expr} (h : d.isPlace = true) : d.IsOperand ↔
    (∃ r, d = .temp r) ∨ ∃ a, d = .mem a ∧ a.IsOperand := by
  cases d with
  | temp r => simp [IsOperand.temp]
  | mem a => simp [isOperand_mem]
  | missing | int | addr | bin | call | eseq => cases h

end Expr

theorem Stmt.checkPattern_eq_ok_iff {s : Stmt} :
    s.checkPattern = .ok () ↔ (Node.stmt s).IsPattern := by
  cases s with
  | place l => exact iff_of_true rfl (.place l)
  | jump d targets =>
    rw [checkPattern, Expr.checkNested_eq_ok_iff]
    constructor
    · exact .jump
    · rintro (_ | _ | _ | _ | _ | hd | _)
      exact hd
  | move d e =>
    have hcheck : (Stmt.move d e).checkPattern = .ok () ↔
        d.isPlace = true ∧ d.checkNested = .ok () ∧ e.checkNested = .ok () := by
      rw [← check_eq_ok_iff]
      rfl
    rw [hcheck, Expr.checkNested_eq_ok_iff, Expr.checkNested_eq_ok_iff]
    constructor
    · rintro ⟨hplace, hd, he⟩
      obtain ⟨r, rfl⟩ | ⟨a, rfl, ha⟩ := (Expr.isOperand_iff_of_isPlace hplace).mp hd
      · exact .moveTemp he
      · exact .moveMem ha he
    · rintro (_ | _ | _ | he | ⟨ha, he⟩ | _ | _)
      · exact ⟨rfl, .temp _, he⟩
      · exact ⟨rfl, .mem ha, he⟩
  | cjump c l r t f =>
    have hcheck : (Stmt.cjump c l r t f).checkPattern = .ok () ↔
        c.isKnown = true ∧ l.checkNested = .ok () ∧ r.checkNested = .ok () := by
      rw [← check_eq_ok_iff]
      rfl
    rw [hcheck, Expr.checkNested_eq_ok_iff, Expr.checkNested_eq_ok_iff]
    constructor
    · rintro ⟨hc, hl, hr⟩
      exact .cjump hc hl hr
    · rintro (_ | _ | _ | _ | _ | _ | ⟨hc, hl, hr⟩)
      exact ⟨hc, hl, hr⟩
  | missing | eval | seq => exact iff_of_false (by rintro ⟨⟩) (by rintro ⟨⟩)

/-- The check of a pattern accepts exactly the patterns. -/
theorem Node.checkPattern_eq_ok_iff {p : Node} : p.checkPattern = .ok () ↔ p.IsPattern := by
  cases p with
  | stmt s => exact Stmt.checkPattern_eq_ok_iff
  | expr e =>
    cases e with
    | call f args link =>
      show f.checkNested = .ok () ↔ _
      rw [Expr.checkNested_eq_ok_iff]
      constructor
      · exact .call
      · rintro (⟨⟨⟩⟩ | hf | _ | _ | _ | _ | _)
        exact hf
    | missing | int | addr | temp | bin | mem | eseq =>
      show Expr.checkNested _ = .ok () ↔ _
      rw [Expr.checkNested_eq_ok_iff]
      constructor
      · exact .operand
      · rintro (h | _ | _ | _ | _ | _ | _)
        exact h

/-! ### Texts -/

namespace Piece

/-- A stretch of text stands for a part: a literal for itself, and a placeholder, which ends at the
next closing brace, for what is between its braces. -/
inductive Stands (reg? : String → Option Reg) (leaves : List LeafKind) : Piece → Part → Prop
  | text {cs : List Char} (hne : cs ≠ []) (hcs : ∀ c ∈ cs, c ≠ '\x7b' ∧ c ≠ '\x7d') :
      Stands reg? leaves (.text cs) (.text (String.ofList cs))
  | slot {offset : Nat} {body : List Char} {p : Part} (hbody : '\x7d' ∉ body)
      (hp : Part.Placeholder reg? leaves body p) : Stands reg? leaves (.slot offset body) p

/-- A literal or a placeholder, with no brace that does not belong there. -/
def IsSound : Piece → Prop
  | .text cs => cs ≠ [] ∧ ∀ c ∈ cs, c ≠ '\x7b' ∧ c ≠ '\x7d'
  | .slot _ body => '\x7d' ∉ body
  | .strayClose _ | .unclosed _ => False

variable {reg? : String → Option Reg} {leaves : List LeafKind} {q : Piece} {p : Part}

theorem stands_iff : Stands reg? leaves q p ↔ q.IsSound ∧ Part.ofPiece reg? leaves q = .ok p := by
  cases q with
  | text cs =>
    constructor
    · rintro (⟨hne, hcs⟩ | _)
      exact ⟨⟨hne, hcs⟩, rfl⟩
    · rintro ⟨⟨hne, hcs⟩, hp⟩
      cases hp
      exact .text hne hcs
  | slot offset body =>
    rw [Part.ofPiece_slot]
    constructor
    · rintro (_ | ⟨hbody, hp⟩)
      exact ⟨hbody, hp⟩
    · rintro ⟨hbody, hp⟩
      exact .slot hbody hp
  | strayClose | unclosed =>
    constructor
    · rintro ⟨⟩
    · rintro ⟨⟨⟩, _⟩

theorem ofReversed_sound {acc : List Char} (hacc : ∀ c ∈ acc, c ≠ '\x7b' ∧ c ≠ '\x7d') :
    (ofReversed acc).flatMap source = acc.reverse ∧ ∀ q ∈ ofReversed acc, q.IsSound := by
  cases acc with
  | nil => simp [ofReversed]
  | cons c acc =>
    refine ⟨by simp [ofReversed, source], ?_⟩
    intro q hq
    rw [mem_singleton.mp hq]
    exact ⟨by simp, fun d hd => hacc d (mem_reverse.mp hd)⟩

mutual

/-- What is cut into pieces that can all be resolved is put together from them. -/
theorem scanText_sound (acc : List Char) {cs : List Char} {offset : Nat}
    (hacc : ∀ c ∈ acc, c ≠ '\x7b' ∧ c ≠ '\x7d')
    (h : ∀ q ∈ scanText offset acc cs, ∃ p, Part.ofPiece reg? leaves q = .ok p) :
    (scanText offset acc cs).flatMap source = acc.reverse ++ cs ∧
      ∀ q ∈ scanText offset acc cs, q.IsSound := by
  cases cs with
  | nil =>
    rw [scanText, append_nil]
    exact ofReversed_sound hacc
  | cons c cs =>
    obtain ⟨hsource, hsound⟩ := ofReversed_sound hacc
    rw [scanText] at h ⊢
    split_ifs at h ⊢ with hopen hclose
    · rw [forall_mem_append] at h ⊢
      obtain ⟨hs, hq⟩ := scanSlot_sound [] (by simp) h.2
      rw [flatMap_append, hsource, hs, hopen]
      exact ⟨rfl, hsound, hq⟩
    · rw [forall_mem_append, forall_mem_singleton] at h
      obtain ⟨-, p, hp⟩ := h
      cases hp
    · have hcons : ∀ d ∈ c :: acc, d ≠ '\x7b' ∧ d ≠ '\x7d' :=
        forall_mem_cons.mpr ⟨⟨hopen, hclose⟩, hacc⟩
      obtain ⟨hs, hq⟩ := scanText_sound (c :: acc) hcons h
      rw [hs, reverse_cons, append_assoc]
      exact ⟨rfl, hq⟩

theorem scanSlot_sound (acc : List Char) {cs : List Char} {start offset : Nat} (hacc : '\x7d' ∉ acc)
    (h : ∀ q ∈ scanSlot start offset acc cs, ∃ p, Part.ofPiece reg? leaves q = .ok p) :
    (scanSlot start offset acc cs).flatMap source = '\x7b' :: acc.reverse ++ cs ∧
      ∀ q ∈ scanSlot start offset acc cs, q.IsSound := by
  cases cs with
  | nil =>
    rw [scanSlot, forall_mem_singleton] at h
    obtain ⟨p, hp⟩ := h
    cases hp
  | cons c cs =>
    rw [scanSlot] at h ⊢
    split_ifs at h ⊢ with hclose
    · rw [forall_mem_cons] at h ⊢
      obtain ⟨hs, hq⟩ := scanText_sound [] (by simp) h.2
      refine ⟨?_, by simpa [IsSound] using hacc, hq⟩
      rw [flatMap_cons, hs, hclose]
      simp [source]
    · have hcons : '\x7d' ∉ c :: acc := by
        simp [hacc, Ne.symm hclose]
      obtain ⟨hs, hq⟩ := scanSlot_sound (c :: acc) hcons h
      rw [hs, reverse_cons]
      exact ⟨by simp, hq⟩

end

/-- A text that can be resolved is cut into literals and placeholders, which stand for the parts. -/
theorem stands_scan {text : String} {parts : List Part}
    (h : (scan text).mapM (Part.ofPiece reg? leaves) = .ok parts) :
    (scan text).flatMap source = text.toList ∧
      List.Forall₂ (Stands reg? leaves) (scan text) parts := by
  rw [mapM_eq_ok_iff] at h
  obtain ⟨hsource, hsound⟩ := scanText_sound [] (by simp) (exists_forall₂_iff.mp ⟨parts, h⟩)
  exact ⟨hsource, ((forall₂_and_left _ _).mpr ⟨hsound, h⟩).imp fun q p hqp => stands_iff.mpr hqp⟩

/-- Text put together from literals and placeholders is read as what those stand for. -/
theorem symbols?_of_stands {pieces : List Piece} {parts : List Part}
    (h : List.Forall₂ (Stands reg? leaves) pieces parts) :
    Part.symbols? reg? leaves (pieces.flatMap source) = some (parts.flatMap Part.symbols) := by
  induction h with
  | nil => rfl
  | cons hq _ ih =>
    rw [flatMap_cons, flatMap_cons]
    cases hq with
    | text hne hcs => rw [source, Part.symbols?_append hcs, ih, Part.symbols, String.toList_ofList,
        Option.map_some]
    | @slot offset body p hbody hp =>
      have hp' := Part.ofPlaceholder_eq_ok_iff.mpr hp
      have hne : ∀ c ∈ body, c ≠ '\x7d' := by
        rintro c hc rfl
        exact hbody hc
      rw [source, append_assoc, singleton_append, Part.symbols?_hole hne hp', ih,
        Part.symbols_ofPlaceholder hp']
      rfl

/-- The texts that can be resolved are those put together from literals and placeholders. -/
theorem exists_parts_iff {text : String} :
    (∃ parts, (scan text).mapM (Part.ofPiece reg? leaves) = .ok parts) ↔
      ∃ pieces parts, pieces.flatMap source = text.toList ∧
        List.Forall₂ (Stands reg? leaves) pieces parts := by
  constructor
  · rintro ⟨parts, h⟩
    exact ⟨scan text, parts, stands_scan h⟩
  · rintro ⟨pieces, parts, hsource, h⟩
    have hread := symbols?_of_stands h
    rw [hsource] at hread
    obtain ⟨parts', hparts, -⟩ := Part.scanText_symbols hread 0 []
    exact ⟨parts', hparts⟩

end Piece

end Codegen
