import Codegen.Proofs.Allocation.Rounds
import Codegen.Proofs.Execution.Renaming

/-!
# The map of a coloring

A register map read off a coloring sends each register to the machine register of its color, and
leaves registers without one alone (`resolve_cases`). It keeps apart what has to be kept apart
(`sound_resolve`), provided that no two registers have one number.
-/

namespace Codegen

open List

namespace RegMap

theorem find?_insertEntry (id i : Nat) (r : Option Reg) (es : List (Nat × Option Reg)) :
    (insertEntry id r es).find? (·.1 == i) = if i = id then some (id, r) else es.find? (·.1 == i) := by
  induction es with
  | nil =>
    by_cases hi : i = id
    · simp [insertEntry, hi]
    · simp [insertEntry, hi, Ne.symm hi]
  | cons e es ih =>
    rw [insertEntry]
    by_cases hi : i = id
    · subst hi
      split
      · simp
      · split
        · simp
        · rename_i hne
          simp [ih, Ne.symm hne]
    · rw [if_neg hi]
      split
      · simp [Ne.symm hi]
      · split
        · rename_i heq
          have hei : (e.1 == i) = false := by simp [← heq, Ne.symm hi]
          simp [hei, Ne.symm hi]
        · rw [find?_cons, find?_cons, ih, if_neg hi]

theorem get?_assign (m : RegMap) (v w : Reg) (r : Option Reg) :
    (m.assign v r).get? w = if w.id = v.id then r else m.get? w := by
  rw [get?, assign, find?_insertEntry]
  split <;> rfl

end RegMap

namespace Allocation

open Execution

variable {cat : Catalog} {c : Coloring} {m : RegMap} {n color : Nat} {r w : Reg}

/-- A number that belongs to no colored node stays as it was. -/
theorem get?_readColors_of_not_mem (ns : List Nat) (m : RegMap)
    (h : ∀ n ∈ ns, ∀ r color, c.live.reg n = some r → c.colorOf n = some color → r.id ≠ w.id) :
    (readColors cat c ns m).get? w = m.get? w := by
  induction ns generalizing m with
  | nil => rfl
  | cons n ns ih =>
    have ih' := fun m => ih m fun n' hn' => h n' (mem_cons_of_mem _ hn')
    show (readColors cat c ns _).get? w = _
    rw [ih']
    dsimp only
    split
    · rename_i color r hc hr
      rw [RegMap.get?_assign, if_neg (Ne.symm (h n mem_cons_self r color hr hc))]
    · rfl

theorem get?_readColors_of_mem {ns : List Nat} (m : RegMap) (hn : n ∈ ns)
    (hr : c.live.reg n = some r) (hc : c.colorOf n = some color)
    (hone : ∀ n' ∈ ns, ∀ r', c.live.reg n' = some r' → r'.id = r.id → n' = n) :
    (readColors cat c ns m).get? r = cat.regs.getD color none := by
  induction ns generalizing m with
  | nil => cases hn
  | cons n' ns ih =>
    by_cases hmem : n ∈ ns
    · exact ih _ hmem fun n' hn' => hone n' (mem_cons_of_mem _ hn')
    · have hnn : n = n' := (mem_cons.mp hn).resolve_right hmem
      subst hnn
      show (readColors cat c ns _).get? r = _
      rw [get?_readColors_of_not_mem ns]
      · simp only [hc, hr, RegMap.get?_assign, if_true]
      · intro n' hn' r' color' hr' _ hid
        exact hmem (hone n' (mem_cons_of_mem _ hn') r' hr' hid ▸ hn')

/-- No two registers of the code, or of the code and the frame pointer, have one number. -/
def Numbered (code : Code) (fp : Option Reg) : Prop :=
  ∀ r w, some r ∈ fp :: code.regs → some w ∈ fp :: code.regs → r.id = w.id → r = w

section Sound

variable {k : Nat} {fp : Option Reg} {temps : List (Option Reg)} {code : Code} {g : Flow}
  (hnd : cat.regs.Nodup) (hg : Flow.ofCode code = .ok g) (hnum : Numbered code fp)
  (hc : c = (Coloring.ofCode cat k fp temps code g).run.1)
  (hm : m = readColors cat c (List.range c.size) .empty)
include hnd hg hnum hc hm

omit hnum hm in
theorem describes_run : c.live.Describes code fp := by
  obtain ⟨hready, hdesc, -⟩ := Coloring.ready_ofCode hnd k fp temps hg
  rwa [hc, hready.live_run]

omit hnum hm in
/-- A machine register has its own color. -/
theorem colorOf_of_regs {r : Option Reg} (hn : c.live.Names n r) (hr : cat.regs[color]? = some r) :
    c.colorOf n = some color := by
  obtain ⟨hready, -, -⟩ := Coloring.ready_ofCode hnd k fp temps hg
  rw [hc] at hn ⊢
  exact hready.colorOf_run hr (hready.live_run ▸ hn)

omit hm in
/-- A number belongs to one node at most. -/
theorem node_eq_of_id {n' : Nat} (hn : c.live.Names n (some r)) (hn' : c.live.Names n' (some w))
    (hid : w.id = r.id) : n' = n := by
  have hdesc := describes_run hnd hg hc
  have heq := hnum w r (mem_cons_of_mem _ ((hdesc.named _).mp ⟨n', hn'⟩).1)
    (mem_cons_of_mem _ ((hdesc.named _).mp ⟨n, hn⟩).1) hid
  subst heq
  exact hdesc.inj hn' hn

omit hnum in
theorem get?_eq_none (h : ∀ r, some r ∈ code.regs → some r ≠ fp → r.id ≠ w.id) :
    m.get? w = none := by
  rw [hm, get?_readColors_of_not_mem]
  · rfl
  · intro n hn r color hr _
    have hname := Liveness.names_reg (mem_range.mp hn)
    rw [hr] at hname
    obtain ⟨h1, h2⟩ := ((describes_run hnd hg hc).named _).mp ⟨n, hname⟩
    exact h r h1 h2

theorem get?_eq_bind (hn : c.live.Names n (some r)) :
    m.get? r = (c.colorOf n).bind fun color => cat.regs.getD color none := by
  have hone : ∀ n' ∈ List.range c.size, ∀ w, c.live.reg n' = some w → w.id = r.id → n' = n := by
    intro n' hn' w hw hid
    have hname := Liveness.names_reg (mem_range.mp hn')
    rw [hw] at hname
    exact node_eq_of_id hnd hg hnum hc hn hname hid
  rw [hm]
  cases hcol : c.colorOf n with
  | none =>
    rw [get?_readColors_of_not_mem]
    · rfl
    · intro n' hn' w color hw hc' hid
      rw [hone n' hn' w hw hid, hcol] at hc'
      cases hc'
  | some color => exact get?_readColors_of_mem .empty (mem_range.mpr hn.lt) hn.reg_eq hcol hone

/-- A register that may be allocated stays as it is. -/
theorem resolve_of_mem_regs {r : Option Reg} (hr : r ∈ code.regs) (hfp : r ≠ fp) (hmem : r ∈ cat.regs) :
    r.map m.resolve = r := by
  cases r with
  | none => rfl
  | some r =>
    obtain ⟨n, hn⟩ := ((describes_run hnd hg hc).named _).mpr ⟨hr, hfp⟩
    obtain ⟨color, hcolor⟩ := getElem?_of_mem hmem
    have hget := get?_eq_bind hnd hg hnum hc hm hn
    rw [colorOf_of_regs hnd hg hc hn hcolor, Option.bind_some, getD_eq_getElem?_getD, hcolor] at hget
    show some ((m.get? r).getD r) = some r
    rw [hget]
    rfl

/-- The map sends a register to the machine register of its color; a register that has none is no
machine register and stays as it is. -/
theorem resolve_cases (hr : some r ∈ code.regs) (hfp : some r ≠ fp) :
    (∃ n color, c.live.Names n (some r) ∧ c.colorOf n = some color ∧
        cat.regs[color]? = some (some (m.resolve r))) ∨
      m.resolve r = r ∧ some r ∉ cat.regs := by
  obtain ⟨n, hn⟩ := ((describes_run hnd hg hc).named _).mpr ⟨hr, hfp⟩
  have hget := get?_eq_bind hnd hg hnum hc hm hn
  by_cases hmem : some r ∈ cat.regs
  · obtain ⟨color, hcolor⟩ := getElem?_of_mem hmem
    have hkept := resolve_of_mem_regs hnd hg hnum hc hm hr hfp hmem
    exact .inl ⟨n, color, hn, colorOf_of_regs hnd hg hc hn hcolor,
      hcolor.trans (congrArg some hkept.symm)⟩
  cases hq : m.get? r with
  | none => exact .inr ⟨by rw [RegMap.resolve, hq]; rfl, hmem⟩
  | some q =>
    rw [hq, eq_comm, Option.bind_eq_some_iff] at hget
    obtain ⟨color, hcol, hcolor⟩ := hget
    refine .inl ⟨n, color, hn, hcol, ?_⟩
    rw [getD_eq_getElem?_getD, Option.getD_eq_iff] at hcolor
    rw [RegMap.resolve, hq]
    simpa using hcolor

/-- Only itself goes to a register that may not be allocated. -/
theorem eq_of_resolve_eq {r q : Option Reg} (hr : r ∈ code.regs) (hfp : r ≠ fp) (hq : q ∉ cat.regs)
    (heq : r.map m.resolve = q) : r = q := by
  cases r with
  | none => exact heq
  | some r =>
    subst heq
    rcases resolve_cases hnd hg hnum hc hm hr hfp with ⟨n, color, -, -, hp⟩ | ⟨h1, -⟩
    · exact absurd (mem_of_getElem? hp) hq
    · rw [Option.map_some, h1]

/-- Registers that are sent to one machine register have one color. -/
theorem eq_or_color_eq {r w : Option Reg} (hr : r ∈ code.regs) (hrf : r ≠ fp) (hw : w ∈ code.regs)
    (hwf : w ≠ fp) (heq : w.map m.resolve = r.map m.resolve) : w = r ∨
      ∃ nw nr color, c.live.Names nw w ∧ c.live.Names nr r ∧ c.colorOf nw = some color ∧
        c.colorOf nr = some color := by
  by_cases hfixed : w.map m.resolve ∈ cat.regs
  · cases w with
    | none => cases r with
      | none => exact .inl rfl
      | some r => cases heq
    | some w => cases r with
      | none => cases heq
      | some r =>
        rcases resolve_cases hnd hg hnum hc hm hw hwf with ⟨nw, cw, hnw, hcw, hqw⟩ | ⟨h1, h2⟩
        · rcases resolve_cases hnd hg hnum hc hm hr hrf with ⟨nr, cr, hnr, hcr, hqr⟩ | ⟨h1, h2⟩
          · obtain ⟨h1, h2⟩ := List.getElem?_eq_some_iff.mp hqw
            obtain ⟨h3, h4⟩ := List.getElem?_eq_some_iff.mp hqr
            have hcc : cw = cr := (List.Nodup.getElem_inj_iff hnd).mp (h2.trans (heq.trans h4.symm))
            exact .inr ⟨nw, nr, cw, hnw, hnr, hcw, hcc ▸ hcr⟩
          · rw [heq, Option.map_some, h1] at hfixed
            exact absurd hfixed h2
        · rw [Option.map_some, h1] at hfixed
          exact absurd hfixed h2
  · exact .inl ((eq_of_resolve_eq hnd hg hnum hc hm hw hwf hfixed rfl).trans
      (eq_of_resolve_eq hnd hg hnum hc hm hr hrf hfixed heq.symm).symm)

/-- The map of a coloring keeps apart what is in use at the same time. -/
theorem sound_resolve (hfp : fp ∉ cat.regs) : Sound (Option.map m.resolve) code fp := by
  obtain ⟨hready, hdesc, -⟩ := Coloring.ready_ofCode hnd k fp temps hg
  refine ⟨?_, fun r hr hne heq => ?_, fun i x w r hx hw hwf hl hrf heq => ?_⟩
  · cases fp with
    | none => rfl
    | some p =>
      have hget : m.get? p = none := get?_eq_none hnd hg hc hm fun r h1 h2 hid =>
        h2 (by rw [hnum r p (mem_cons_of_mem _ h1) mem_cons_self hid])
      show some ((m.get? p).getD p) = some p
      rw [hget]
      rfl
  · exact hne (eq_of_resolve_eq hnd hg hnum hc hm hr hne hfp heq)
  · rcases eq_or_color_eq hnd hg hnum hc hm hl.mem_regs hrf (Code.mem_regs_of_writes hx hw) hwf heq
      with h1 | ⟨nw, nr, color, hnw, hnr, hcw, hcr⟩
    · exact Or.inl h1
    by_cases hwr : w = r
    · exact Or.inl hwr
    right
    rw [hc, hready.live_run] at hnw hnr
    have hrefs := hdesc.refs hx
    have hdef := (hrefs.mem_defs nw).mpr ⟨w, hw, hwf, hnw⟩
    have hlt : i < (Coloring.ofCode cat k fp temps code g).live.refs.size := by
      rw [hdesc.size_refs]
      exact (List.getElem?_eq_some_iff.mp hx).1
    have hnn : nr ≠ nw := by
      rintro rfl
      exact hwr (by rw [← hnw.reg_eq, ← hnr.reg_eq])
    -- two registers of one color do not conflict, so the instruction copies one to the other
    have hcopied : some nr = Coloring.copied (Coloring.ofCode cat k fp temps code g).live i := by
      by_contra hno
      rw [hc] at hcw hcr
      exact hready.color_ne hlt ⟨hdef, (hdesc.after i nr).mpr ⟨r, hnr, hl⟩, hno, hnn⟩ hcw hcr
    rw [Coloring.copied, eq_comm, Option.map_eq_some_iff] at hcopied
    obtain ⟨⟨u, d⟩, hpair, rfl⟩ := hcopied
    obtain ⟨hmove, huses, hdefs, -⟩ := Liveness.movePair?_eq_some.mp hpair
    rw [hrefs.isMove] at hmove
    simp only [Bool.and_eq_true] at hmove
    have hnd' : nw = d := by
      rw [hdefs] at hdef
      exact mem_singleton.mp hdef
    subst hnd'
    refine ⟨hmove.1.1, fun r' => ⟨fun ⟨h1, h2⟩ => ?_, ?_⟩, fun w' => ⟨fun ⟨h1, h2⟩ => ?_, ?_⟩⟩
    · obtain ⟨n', hn'⟩ := (hdesc.named r').mpr ⟨Code.mem_regs_of_reads hx h1, h2⟩
      have hmem := (hrefs.mem_uses n').mpr ⟨r', h1, h2, hn'⟩
      rw [huses, mem_singleton] at hmem
      subst hmem
      rw [← hn'.reg_eq, ← hnr.reg_eq]
    · rintro rfl
      have hmem : u ∈ ((Coloring.ofCode cat k fp temps code g).live.refsOf i).uses := by
        rw [huses]
        exact mem_singleton_self u
      obtain ⟨r', h1, h2, h3⟩ := (hrefs.mem_uses u).mp hmem
      rw [← hnr.reg_eq, h3.reg_eq]
      exact ⟨h1, h2⟩
    · obtain ⟨n', hn'⟩ := (hdesc.named w').mpr ⟨Code.mem_regs_of_writes hx h1, h2⟩
      have hmem := (hrefs.mem_defs n').mpr ⟨w', h1, h2, hn'⟩
      rw [hdefs, mem_singleton] at hmem
      subst hmem
      rw [← hn'.reg_eq, ← hnw.reg_eq]
    · rintro rfl
      exact ⟨hw, hwf⟩

end Sound

end Allocation

end Codegen
