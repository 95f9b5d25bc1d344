import Codegen.Proofs.Block.Shape
import Codegen.Proofs.Canonical.Meaning
import Codegen.Proofs.Canonical.Shape
import Codegen.Proofs.Program.Select

/-!
# Every well-formed function is compiled

A function is well-formed (`Function.WellFormed`) if its frame was made for it, its trees name only
virtual registers and the frame pointer, place each label once and jump only to labels that they place,
and have a canonical form. Such a function is compiled, whatever its size, if enough rounds of
allocation may be tried (`Function.compile_returns`): its canonical form is what selection takes, the
blocks that are laid out keep every jump inside, and in the code that is selected every instruction
fits.
-/

namespace Codegen

open Allocation Pass Code Semantics List

variable {t : Target} {base s : Supply} {names : List String}

/-! ### Code that fits -/

namespace Target

variable {f : Frame} {begin c : Code} {saved : List (Option Reg)} {labels : List Label}
  {dests : List (Option Label)}

theorem Begins.mono {s' : Supply} (h : t.Begins f s begin saved) (hs : s.Grows s') :
    t.Begins f s' begin saved :=
  { h with
    regs := fun r hr => (h.regs r hr).imp_left fun h => h.mono hs
    saved := fun r hr => (h.saved r hr).mono hs }

theorem Apt.knows_of_mem_regs (ht : t.Apt base names) {r : Option Reg} (hr : r ∈ t.catalog.regs) :
    base.Knows r := by
  obtain ⟨q, rfl, hq⟩ := ht.machine r hr
  exact ht.knows q hq

theorem Apt.knows_fp (ht : t.Apt base names) : base.Knows (some t.fp) := ht.knows _ ht.fp_isMachine

/-- In the code of a function every instruction fits. -/
theorem Begins.fits (h : t.Begins f s begin saved) (ht : t.Apt base names) (hs : base.Grows s)
    (hc : t.Selected s labels dests c) (honce : (f.label :: labels).Nodup)
    (hdests : ∀ l ∈ dests, l ∈ labels.map some) :
    ∃ g, Fits t.catalog (some t.fp) t.catalog.regs.length s (begin ++ c) g := by
  have hlabels : (begin ++ c).labels = f.label :: labels := by
    rw [labels_append, h.labels, hc.labels]
    rfl
  have hjump : ∀ i ∈ begin ++ c, ∀ l ∈ i.dests, ∃ l', l = some l' ∧ l' ∈ labels := by
    rw [forall_mem_append]
    refine ⟨fun i hi l hl => ?_, fun i hi l hl => ?_⟩
    · rw [h.dests i hi] at hl
      cases hl
    · obtain ⟨l', hl', rfl⟩ := mem_map.mp (hdests l (hc.dests i hi l hl))
      exact ⟨l', rfl, hl'⟩
  obtain ⟨g, hg⟩ : ∃ g, Flow.ofCode (begin ++ c) = .ok g := by
    refine Flow.ofCode_isOk_iff.mpr ⟨hlabels ▸ honce, fun i hi l hl => ?_⟩
    obtain ⟨l', rfl, hl'⟩ := hjump i hi l hl
    exact ⟨l', rfl, hlabels ▸ mem_cons_of_mem _ hl'⟩
  have hregs : ∀ r ∈ (begin ++ c).regs, t.Nameable s r ∨ r ∈ t.catalog.regs := by
    rw [regs_append, forall_mem_append]
    exact ⟨h.regs, hc.regs⟩
  refine ⟨g, hg, ?_, fun r hr hm => ?_, fun hr => ?_, fun r hr => ?_, ht.knows_fp.mono hs,
    fun r hr => (ht.knows_of_mem_regs hr).mono hs, fun r hr => ?_, fun i x hx => ?_⟩
  · rw [forall_mem_append]
    exact ⟨h.silent, hc.silent⟩
  · obtain ⟨q, hq, hvar | rfl⟩ | hmem := hregs _ hr
    · cases hq
      rw [hvar.not_machine] at hm
      cases hm
    · exact .inr hq
    · exact .inl hmem
  · obtain ⟨q, hq, -⟩ | hmem := hregs _ hr
    · cases hq
    · obtain ⟨q, hq, -⟩ := ht.machine _ hmem
      cases hq
  · obtain ⟨q, rfl, hvar | rfl⟩ | hmem := hregs r hr
    · exact hvar.knows
    · exact ht.knows_fp.mono hs
    · exact (ht.knows_of_mem_regs hmem).mono hs
  · exact (ht.knows r (ht.found r hr)).mono hs r rfl
  · refine pressure_le_of_stretches hg h.room hc.stretches (fun y hy l hl => ?_) hx
    obtain ⟨l', hl', hmem⟩ := hjump y hy _ hl
    cases hl'
    exact hc.labels ▸ hmem

/-! ### New frames -/

theorem paramLocs_advances (t : Target) (i n : Nat) (s : Supply) : s.Advances (t.paramLocs i n s).2 := by
  induction n generalizing i s with
  | zero => exact .refl s
  | succ n ih =>
    rw [paramLocs]
    split
    · exact s.advances_freshReg.trans (ih (i + 1) s.freshReg.2)
    · exact ih (i + 1) s

theorem label_newFrame (t : Target) (name : String) (n : Nat) (nested : Bool) (s : Supply) :
    (t.newFrame name n nested s).1.label = (s.namedLabel name).1 := by
  cases nested <;> rfl

/-- The label of a new frame was handed out. -/
theorem knowsLabel_newFrame (t : Target) (name : String) (n : Nat) (nested : Bool) (s : Supply) :
    (t.newFrame name n nested s).2.KnowsLabel (some (t.newFrame name n nested s).1.label) := by
  rw [label_newFrame]
  have hmade : s.MadeLabel (s.namedLabel name).2 (s.namedLabel name).1 :=
    ⟨rfl, Nat.le_refl _, Nat.lt_succ_self _⟩
  have hparams := t.paramLocs_advances 0 n (s.namedLabel name).2
  cases nested with
  | false => exact hmade.knowsLabel.mono hparams.more
  | true => exact hmade.knowsLabel.mono (hparams.trans (Supply.advances_freshReg _)).more

theorem Framed.resize {n : Nat} {nested : Bool} {s' : Supply} {rs parents : List Reg}
    (h : t.Framed f n nested s s' rs parents) (size : Int64) :
    t.Framed { f with size } n nested s s' rs parents :=
  ⟨h.params, h.length, h.parent, h.nested, h.fp, h.handsOut⟩

end Target

/-! ### Well-formed functions -/

/-- Only the supply for trees and the log change. -/
structure Bench.Keeps (b b' : Bench) : Prop where
  machine : b'.machine = b.machine
  frames : b'.frames = b.frames

theorem Bench.Keeps.trans {b b₁ b' : Bench} (h : b.Keeps b₁) (h' : b₁.Keeps b') : b.Keeps b' :=
  ⟨h'.machine.trans h.machine, h'.frames.trans h.frames⟩

theorem Bench.tell_ends (b : Bench) (events : Array Event) :
    Ends (Bench.tell events) b (fun _ b' => b.Keeps b' ∧ b'.supply = b.supply) fun _ => False :=
  ends_modify.mpr ⟨⟨rfl, rfl⟩, rfl⟩

namespace Function

variable {fn : Function} {b : Bench} {L : Option Label → Prop}

/-- The labels that a function places. -/
def places (fn : Function) : List (Option Label) := fn.body.places ++ fn.result.places

/-- The labels that jumps in a function name. -/
def goals (fn : Function) : List (Option Label) := fn.body.goals ++ fn.result.goals

/-- The function can be compiled for the target, which `base` has handed out the registers of: its
frame was made by the target, its trees are well-formed and have a canonical form, each label is
placed once and is not that of the frame, and jumps go to labels that are placed. -/
structure WellFormed (t : Target) (base : Supply) (fn : Function) (b : Bench) : Prop where
  machine : b.machine = none
  frame : ∃ (name : String) (n : Nat) (nested : Bool) (size : Int64) (s : Supply), base.Advances s ∧
    (t.newFrame name n nested s).2.Advances b.supply ∧
    b.frames[fn.frame]? = some { (t.newFrame name n nested s).1 with size }
  body : fn.body.WellFormed (t.Nameable b.supply) b.supply.KnowsLabel
  result : fn.result.WellFormed (t.Nameable b.supply) b.supply.KnowsLabel
  once : fn.places.Nodup
  label : ∀ f, b.frames[fn.frame]? = some f → some f.label ∉ fn.places
  inside : fn.goals ⊆ fn.places
  accepts : ∀ x r b₁, fn.tree b = .ok (x, r) b₁ → ∃ y b₂, Bench.canonical x b₁ = .ok y b₂

/-- The tree of a function is made of its body and its result. -/
theorem tree_ends (ht : t.Apt base names) (hs : base.Grows b.supply)
    (hbody : fn.body.WellFormed (t.Nameable b.supply) L)
    (hresult : fn.result.WellFormed (t.Nameable b.supply) L) :
    Ends fn.tree b (fun x b₁ => b.Keeps b₁ ∧ b.supply.Advances b₁.supply ∧
      x.1.WellFormed (t.Nameable b₁.supply) L ∧ x.1.places = fn.places ∧ x.1.goals = fn.goals ∧
      (x.2.isSome = true → t.Nameable b₁.supply x.2)) fun _ => False := by
  rw [tree]
  obtain ⟨y, hy, hwf, hplaces, hgoals⟩ : ∃ y, (if fn.body.isPresent then fn.body else .seq []) = y ∧
      y.WellFormed (t.Nameable b.supply) L ∧ y.places = fn.body.places ∧ y.goals = fn.body.goals := by
    refine ⟨_, rfl, ?_⟩
    generalize fn.body = body at hbody
    cases body with
    | missing => exact ⟨trivial, rfl, rfl⟩
    | move | eval | jump | cjump | seq | place => exact ⟨hbody, rfl, rfl⟩
  rw [hy]
  split
  · rw [ends_bind, Bench.onSupply, ends_zoom, ends_step]
    have hadv := b.supply.advances_freshReg
    have hmono : ∀ r, t.Nameable b.supply r → t.Nameable b.supply.freshReg.2 r := fun r hr =>
      hr.mono hadv.grows
    have hfresh := ht.nameable_freshReg hs
    refine ends_pure.mpr ⟨⟨rfl, rfl⟩, hadv, ⟨hwf.mono hmono fun _ => id,
      ⟨hfresh, hresult.mono hmono fun _ => id⟩, trivial⟩, ?_, ?_, fun _ => hfresh⟩
    · show y.places ++ (fn.result.places ++ []) = _
      rw [append_nil, hplaces, places]
    · show y.goals ++ (fn.result.goals ++ []) = _
      rw [append_nil, hgoals, goals]
  · rename_i habsent
    have hmissing : fn.result = .missing := by
      cases hr : fn.result with
      | missing => rfl
      | int | addr | temp | bin | mem | call | eseq => exact absurd (by rw [hr]; rfl) habsent
    refine ends_pure.mpr ⟨⟨rfl, rfl⟩, .refl _, hwf, ?_, ?_, nofun⟩
    · rw [places, hmissing, hplaces]
      exact (append_nil _).symm
    · rw [goals, hmissing, hgoals]
      exact (append_nil _).symm

/-- What the canonical form of a well-formed tree is made of. -/
theorem canonical_forms (ht : t.Apt base names) (hs : base.Grows b.supply) {x : Stmt}
    (hx : x.WellFormed (t.Nameable b.supply) L) :
    Ends (Bench.canonical x) b (fun y b₁ => b.Keeps b₁ ∧
      Canonical.Forms t.Nameable L b.supply b₁.supply x.places x.goals y.1.flatten) fun _ => True := by
  rw [Bench.canonical, ends_zoom, ends_bind, Canonical.stmt, ends_map]
  refine (Canonical.hoistStmt_forms (ht.keeps hs) x hx (.refl _)).imp fun ys st h => ?_
  rw [ends_bind, ends_get]
  refine ends_pure.mpr ⟨⟨rfl, rfl⟩, ?_⟩
  show Canonical.Forms _ _ _ _ _ _ (Stmt.ofList ys).flatten
  rw [flatten_ofList fun y hy => ?_]
  · exact h
  · have hsel := h.selectable y hy
    cases y with
    | missing | seq => cases hsel
    | move | eval | jump | cjump | place => rfl

/-- The canonical form of a tree can be arranged. -/
theorem closed_of_forms {s s₁ s' : Supply} {ps gs : List (Option Label)} {ys : List Stmt}
    (h : Canonical.Forms t.Nameable s.KnowsLabel s₁ s' ps gs ys) (hs : s.MoreLabels s')
    (honce : ps.Nodup) (hinside : gs ⊆ ps) : Closed (t.Nameable s') s' ys where
  selectable y hy := (h.selectable y hy).mono (fun _ => id) fun _ hl => hl.mono hs
  once := h.places ▸ honce
  inside := h.places ▸ List.Subset.trans h.goals hinside

/-- The labels that code is selected for are those that the statements place. -/
theorem map_some_placed? {P : Option Reg → Prop} {list : List Stmt}
    (h : ∀ x ∈ list, x.Selectable P L) :
    (list.filterMap fun x => (Node.stmt x).placed?).map some = placed list := by
  induction list with
  | nil => rfl
  | cons x list ih =>
    rw [forall_mem_cons] at h
    by_cases hplace : ∃ l, x = .place l
    · obtain ⟨l, rfl⟩ := hplace
      obtain ⟨m, rfl⟩ := Option.isSome_iff_exists.mp h.1.1
      exact congrArg (some m :: ·) (ih h.2)
    · have hnone : (Node.stmt x).placed? = none := by
        cases x with
        | place l => exact absurd ⟨l, rfl⟩ hplace
        | missing | move | eval | jump | cjump | seq => rfl
      have hcons : (x :: list).filterMap (fun x => (Node.stmt x).placed?) =
          list.filterMap fun x => (Node.stmt x).placed? := filterMap_cons_none hnone
      rw [hcons, ih h.2, placed, placed, entries_cons fun l hl => hplace ⟨l, hl⟩]

/-- In the code that is selected for arranged statements every instruction fits. -/
theorem fits_of_arranged {s₁ s₂ : Supply} {P : Option Reg → Prop} {f : Frame} {begin c : Code}
    {saved : List (Option Reg)} {ys list : List Stmt} (hbegin : t.Begins f s begin saved)
    (ht : t.Apt base names) (hs : base.Grows s) (harr : Arranged P s₁ s₂ ys list)
    (hc : t.Selected s (list.filterMap fun x => (Node.stmt x).placed?) (list.flatMap Stmt.dests) c)
    (hlabel : some f.label ∉ placed ys) (hknows : s₁.KnowsLabel (some f.label)) :
    ∃ g, Fits t.catalog (some t.fp) t.catalog.regs.length s (begin ++ c) g := by
  have hplaced := map_some_placed? harr.selectable
  refine hbegin.fits ht hs hc (nodup_cons.mpr ⟨fun hmem => ?_, ?_⟩) fun l hl => ?_
  · have hmem : some f.label ∈ placed list := hplaced ▸ mem_map_of_mem hmem
    obtain hmem | ⟨m, hm, hmade⟩ := harr.label_cases _ hmem
    · exact hlabel hmem
    · exact hknows.ne hmade hm
  · exact List.Nodup.of_map some (hplaced ▸ harr.once)
  · obtain ⟨y, hy, hl⟩ := mem_flatMap.mp hl
    exact hplaced ▸ harr.inside y hy l hl

/-! ### Compilation -/

/-- A change of the supply of a target that has none of its own. -/
theorem ends_onTarget {α : Type} {g : Supply → α × Supply} {ok : α → Bench → Prop}
    {err : Failure → Prop} (hb : b.machine = none) :
    Ends (Bench.onTarget g) b ok err ↔ ok (g b.supply).1 { b with supply := (g b.supply).2 } := by
  rw [Bench.onTarget, ends_zoom, ends_step, Bench.targetSupply, Bench.setTargetSupply, hb]
  rfl

/-- Registers are allocated over a frame, which is replaced where it was, for such a target. -/
theorem ends_allocating {α : Type} {x : Allocation.Run α} {i : Nat} {f : Frame} {ok : α → Bench → Prop}
    {err : Failure → Prop} (hb : b.machine = none) (hf : b.frames[i]? = some f)
    (h : Ends x { supply := b.supply, frame := some f, log := b.log }
      (fun a st => ∀ b' : Bench, b'.frames[i]? = some (st.frame.getD f) → ok a b') err) :
    Ends (Bench.allocating i x) b ok err := by
  rw [Bench.allocating, ends_zoom, Bench.targetSupply, hb, hf]
  refine h.imp fun a st hok => hok _ ?_
  have hset : (b.setTargetSupply st.supply).frames = b.frames := by
    unfold Bench.setTargetSupply
    split <;> rfl
  dsimp only
  rw [hset]
  cases st.frame with
  | none => exact hf
  | some f' =>
    obtain ⟨hlt, -⟩ := Array.getElem?_eq_some_iff.mp hf
    exact Array.getElem?_setIfInBounds_self_of_lt hlt

/-- What is selected for a well-formed function fits. -/
theorem selected_fits (ht : t.Apt base names) (hfn : fn.WellFormed t base b) :
    Ends (fn.selected t) b (fun x b₁ => b.frames[fn.frame]? = some x.1 ∧ x.1.fp = some t.fp ∧
      b₁.machine = none ∧ b₁.frames = b.frames ∧
      ∃ g, Fits t.catalog (some t.fp) t.catalog.regs.length b₁.supply x.2.1 g) fun _ => False := by
  obtain ⟨name, n, nested, size, s₀, hs₀, hadv₀, hframe⟩ := hfn.frame
  obtain ⟨rs, parents, hnew⟩ := t.newFrame_framed name n nested s₀
  have hknows := (t.knowsLabel_newFrame name n nested s₀).mono hadv₀.more
  have hframed := hnew.resize size
  have hlabel := hfn.label _ hframe
  generalize (t.newFrame name n nested s₀).2 = s₁ at hframed hadv₀
  generalize hf : ({ (t.newFrame name n nested s₀).1 with size } : Frame) = f at hframed hframe hlabel
  have hknows : b.supply.KnowsLabel (some f.label) := hf ▸ hknows
  have hbase : base.Grows b.supply := (hs₀.grows.trans hframed.handsOut.grows).trans hadv₀.grows
  rw [selected, ends_bind, Bench.frame, ends_bind, ends_get, hframe]
  refine ends_orTrap ?_ nofun
  rintro _ ⟨⟩
  -- the tree and its canonical form
  obtain ⟨⟨x, result⟩, b₁, htree, hb₁, hadv₁, hx, hplaces, hgoals, hresult⟩ :=
    (tree_ends ht hbase hfn.body hfn.result).returns
  obtain ⟨y, b₂, hcanonical⟩ := hfn.accepts x result b₁ htree
  obtain ⟨hb₂, hforms⟩ :=
    (canonical_forms ht (hbase.trans hadv₁.grows) hx).of_ok hcanonical
  have hadv₂ := hadv₁.trans hforms.advances
  have hclosed := closed_of_forms hforms hadv₂.more (hplaces ▸ hfn.once) (hgoals ▸ hplaces ▸ hfn.inside)
  rw [ends_bind]
  refine ends_of_eq htree ?_
  dsimp only
  rw [ends_bind]
  refine ends_of_eq (a := y) (by unfold Pass.within; rw [hcanonical]) ?_
  -- its blocks, and the begin of the function
  have harrange : Ends (Bench.onSupply (Block.arrangeStmt y.1)) b₂ (fun z b₃ => ∃ list, z = .seq list ∧
      b₂.Keeps b₃ ∧ b₂.supply.Advances b₃.supply ∧
      Arranged (t.Nameable b₂.supply) b₂.supply b₃.supply y.1.flatten list) fun _ => False := by
    rw [Bench.onSupply, ends_zoom]
    refine (arrangeStmt_arranges hclosed).imp ?_
    rintro _ s ⟨list, rfl, hadv, harr⟩
    exact ⟨list, rfl, ⟨rfl, rfl⟩, hadv, harr⟩
  refine (harrange.within_of_returns _).bind ?_
  rintro _ b₃ ⟨list, rfl, hb₃, hadv₃, harr⟩
  refine (b₃.tell_ends _).bind ?_
  rintro - b₄ ⟨hb₄, hs₄⟩
  refine (b₄.tell_ends _).bind ?_
  rintro - b₅ ⟨hb₅, hs₅⟩
  have hkeeps := (((hb₁.trans hb₂).trans hb₃).trans hb₄).trans hb₅
  rw [ends_bind, ends_onTarget (hkeeps.machine.trans hfn.machine), hs₅, hs₄]
  dsimp only
  obtain ⟨hgrows, hbegin⟩ := hframed.begins ht hs₀.grows (hadv₀.grows.trans (hadv₂.trans hadv₃).grows)
  generalize t.prologue f b₃.supply = begin at hgrows hbegin
  have hgrows₃ := hadv₃.grows.trans hgrows
  have hbase₄ := hbase.trans (hadv₂.grows.trans hgrows₃)
  -- the code
  rw [ends_bind, Bench.selecting, ends_zoom]
  refine (select_selects ht hbase₄ hbegin (fun z hz => (harr.selectable z hz).mono
    (fun r hr => hr.mono hgrows₃) fun _ => id)
    (fun h => (hresult h).mono (hforms.advances.grows.trans hgrows₃)) _).imp ?_
  rintro _ st ⟨hgrows₄, c, rfl, hsel⟩
  refine ends_pure.mpr ⟨rfl, hframed.fp, hkeeps.machine.trans hfn.machine, hkeeps.frames, ?_⟩
  refine fits_of_arranged (hbegin.mono hgrows₄) ht (hbase₄.trans hgrows₄) harr hsel ?_
    (hknows.mono hadv₂.more)
  rw [hclosed.placed_eq, hforms.places, hplaces]
  exact hlabel

/-- The registers of code that fits are allocated. -/
theorem allocated_ends (ht : t.Apt base names) {f : Frame} {code : Code} {g : Flow} {cfg : Config}
    (hb : b.machine = none) (hf : b.frames[fn.frame]? = some f) (hfp : f.fp = some t.fp)
    (hfits : Fits t.catalog (some t.fp) t.catalog.regs.length b.supply code g)
    (hcolors : cfg.colors = 0)
    (hrounds : ((virtuals t.catalog (some t.fp) code.regs).card : Int) < cfg.maxRounds)
    (warnings : List Canonical.Warning) :
    Ends (fn.allocated t cfg f code warnings) b (fun _ _ => True) fun _ => False := by
  have hk : cfg.colorCount t.catalog.regs.length = t.catalog.regs.length := by
    simp [Config.colorCount, hcolors]
  have hleft : (virtuals t.catalog f.fp code.regs).card < cfg.rounds := by
    rw [hfp, Config.rounds, if_neg (by omega)]
    omega
  have hne : t.catalog.regs ≠ [] := by
    have hroom := ht.room
    rintro hnil
    rw [hnil, length_nil] at hroom
    omega
  rw [allocated]
  refine (b.tell_ends _).bind ?_
  rintro - b₁ ⟨hb₁, hs₁⟩
  have hframe : b₁.frames[fn.frame]? = some f := hb₁.frames ▸ hf
  have halloc : Ends (Bench.allocating fn.frame (allocate t.catalog t.dialect.spillCode cfg code)) b₁
      (fun _ b' => ∃ f', b'.frames[fn.frame]? = some f') fun _ => False := by
    refine ends_allocating (hb₁.machine.trans hb) hframe ?_
    rw [hs₁]
    exact (Fits.ends_allocate (f := f) (hfp ▸ hk ▸ hfits) ht.nodup hne rfl hleft).imp
      fun _ _ _ _ hf' => ⟨_, hf'⟩
  refine (halloc.within_of_returns _).bind ?_
  rintro alloc b₂ ⟨f', hf'⟩
  rw [ends_bind, mapFramePointer, if_pos hfp]
  refine ends_pure.mpr ?_
  rw [ends_bind, Bench.frame, ends_bind, ends_get, hf']
  refine ends_orTrap ?_ (by simp)
  rintro _ ⟨⟩
  exact (b₂.tell_ends _).bind fun _ _ _ => ends_pure.mpr trivial

/-- Every well-formed function is compiled for both machines, with all their registers, if the rounds
that may be tried are more than the virtual registers of the code that is selected for it. -/
theorem compile_returns (a : Arch) (s : Supply) {fn : Function} {b : Bench}
    (hfn : fn.WellFormed (a.make s).1 (a.make s).2 b) :
    ∃ f code warnings b₁, fn.selected (a.make s).1 b = .ok (f, code, warnings) b₁ ∧
      ∀ cfg : Config, cfg.colors = 0 →
        ((virtuals (a.make s).1.catalog (some (a.make s).1.fp) code.regs).card : Int) <
          cfg.maxRounds →
        ∃ res b', fn.compile (a.make s).1 cfg b = .ok res b' := by
  have ht := a.apt_make s
  obtain ⟨⟨f, code, warnings⟩, b₁, hsel, hf, hfp, hb₁, hframes, g, hfits⟩ :=
    (selected_fits ht hfn).returns
  refine ⟨f, code, warnings, b₁, hsel, fun cfg hcolors hrounds => ?_⟩
  have hends : Ends (fn.compile (a.make s).1 cfg) b (fun _ _ => True) fun _ => False := by
    rw [compile, ends_bind]
    exact ends_of_eq hsel
      (allocated_ends ht hb₁ (hframes ▸ hf) hfp hfits hcolors hrounds warnings)
  obtain ⟨res, b', h, -⟩ := hends.returns
  exact ⟨res, b', h⟩

/-- A function of seven parameters that calls itself in a loop, divides by what comes back, and stores a
word in its frame before it returns. -/
def dividing : Function :=
  let r : Expr := .temp (some ⟨0, 23, ""⟩)
  let fp : Expr := .temp (some ⟨0, 14, "%rbp"⟩)
  let top : Option Label := some ⟨0, 1, ""⟩
  let out : Option Label := some ⟨0, 2, ""⟩
  { frame := 0
    body := .seq [.place top,
      .move r (.bin .div r (.call (.addr (some ⟨0, 0, "dividing"⟩)) [r, r, r, r, r, r, r] fp) 0),
      .cjump .lt (.int 9) r top out, .place out]
    result := .eseq (.move (.mem (.bin .add fp (.int (-8)) 0)) r) (.bin .shl r (.int 2) 0) }

/-- What the function is compiled with: its frame, and a supply that has handed out its registers and
labels. -/
def dividingBench (t : Target) : Bench :=
  { supply := { labels := 3, regs := 24 }
    frames := #[{ (t.newFrame "dividing" 7 true { regs := 16 }).1 with size := 8 }] }

theorem supply_dividing (hparams : t.regParams = 6) :
    (t.newFrame "dividing" 7 true { regs := 16 }).2 = { labels := 1, regs := 23 } := by
  simp [Target.newFrame, Target.paramLocs, hparams, Supply.freshReg, Supply.namedReg,
    Supply.namedLabel]

theorem dividing_wellFormed (ht : t.Apt { regs := 16 } names) (hfp : t.fp = ⟨0, 14, "%rbp"⟩)
    (hparams : t.regParams = 6) : dividing.WellFormed t { regs := 16 } (dividingBench t) := by
  have hr : t.Nameable { labels := 3, regs := 24 } (some ⟨0, 23, ""⟩) :=
    ⟨_, rfl, .inl (ht.variable_of_made ⟨rfl, rfl, by decide, by decide⟩)⟩
  have hfp : t.Nameable { labels := 3, regs := 24 } (some ⟨0, 14, "%rbp"⟩) :=
    ⟨_, rfl, .inr hfp.symm⟩
  have hlabels : ∀ l ∈ [⟨0, 0, "dividing"⟩, ⟨0, 1, ""⟩, ⟨0, 2, ""⟩],
      Supply.KnowsLabel { labels := 3, regs := 24 } (some l) := by decide
  rw [forall_mem_cons, forall_mem_cons, forall_mem_singleton] at hlabels
  obtain ⟨hself, htop, hout⟩ := hlabels
  refine ⟨rfl, ⟨"dividing", 7, true, 8, _, .refl _, ?_, rfl⟩, ?_, ?_, ?_, ?_, ?_, ?_⟩
  · rw [supply_dividing hparams]
    exact ⟨⟨rfl, Nat.le_succ _⟩, rfl, Nat.le_add_right 1 2⟩
  · exact ⟨htop, ⟨hr, rfl, hr, hself, ⟨hr, hr, hr, hr, hr, hr, hr, trivial⟩, hfp⟩,
      ⟨rfl, trivial, hr, htop, hout⟩, hout, trivial⟩
  · exact ⟨⟨⟨rfl, hfp, trivial⟩, hr⟩, rfl, hr, trivial⟩
  · decide
  · rintro f ⟨⟩
    show some (t.newFrame "dividing" 7 true { regs := 16 }).1.label ∉ dividing.places
    rw [Target.label_newFrame]
    decide
  · exact List.Subset.refl _
  · rintro x r b₁ ⟨⟩
    exact ⟨_, _, rfl⟩

theorem dividing_returns :
    let t := (Arch.amd64.make {}).1
    dividing.WellFormed t (Arch.amd64.make {}).2 (dividingBench t) ∧
      ∃ cfg res b', cfg.colors = 0 ∧ dividing.compile t cfg (dividingBench t) = .ok res b' := by
  intro t
  have hparams : t.regParams = 6 := by
    rw [Target.regParams, (Arch.params_make .amd64 {}).1, length_map]
    rfl
  have hfn : dividing.WellFormed t (Arch.amd64.make {}).2 (dividingBench t) :=
    dividing_wellFormed (Arch.amd64.apt_make {}) rfl hparams
  obtain ⟨f, code, warnings, b₁, -, hcompile⟩ := compile_returns .amd64 {} hfn
  obtain ⟨res, b', h⟩ := hcompile
    { maxRounds := (virtuals t.catalog (some t.fp) code.regs).card + 1 } rfl (Int.lt_succ _)
  exact ⟨hfn, _, res, b', rfl, h⟩

end Function

end Codegen
