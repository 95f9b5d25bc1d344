import Codegen.Proofs.Allocation.Meaning
import Codegen.Proofs.Coloring.Groups

/-!
# The map of an allocation

When allocation succeeds, its map has a machine register for every register of the code, the register
itself where it is allocatable and one of the first `k` where it is virtual; and the groups of merged
registers are disjoint and each is sent to one register (`allocate_assigns`). For the map tells
registers apart by their numbers, all rounds have to keep to registers with different numbers
(`Drawn`).
-/

namespace Codegen

open List

/-- Registers that come from one supply: older than what it still hands out, and no two of them with
one number. -/
structure Supply.Owns (s : Supply) (env : Set Reg) : Prop where
  old : ∀ r ∈ env, r.id < s.regs
  inj : ∀ r ∈ env, ∀ w ∈ env, r.id = w.id → r = w

/-- Among registers from one supply and those it hands out next, numbers tell registers apart. -/
theorem Supply.Owns.eq_of_id {s : Supply} {env : Set Reg} (h : s.Owns env) {r w : Reg}
    (hr : r ∈ env ∪ {r | ∃ s', s.Made s' r}) (hw : w ∈ env ∪ {r | ∃ s', s.Made s' r})
    (hid : r.id = w.id) : r = w := by
  rcases hr with hr | ⟨s', hr⟩ <;> rcases hw with hw | ⟨s'', hw⟩
  · exact h.inj r hr w hw hid
  · have := h.old r hr
    have := hw.le
    omega
  · have := h.old w hw
    have := hr.le
    omega
  · exact hr.eq_of_id hw hid

theorem Supply.Owns.grow {s s' : Supply} {env : Set Reg} (h : s.Owns env) (hs : s.Grows s') :
    s'.Owns (env ∪ {q | s.Made s' q}) where
  old := by
    rintro r (hr | hr)
    · exact Nat.lt_of_lt_of_le (h.old r hr) hs.regs
    · exact hr.lt
  inj r hr w hw := h.eq_of_id (hr.imp_right fun hr => ⟨s', hr⟩) (hw.imp_right fun hw => ⟨s', hw⟩)

/-- Loads and stores mention the frame pointer, the register that they are for, and given ones. -/
def SpillCode.Within (sc : SpillCode) (env : Set Reg) : Prop :=
  ∀ fp off t x, some x ∈ Code.regs [sc.load fp off t, sc.store fp off t] →
    some x = fp ∨ x = t ∨ x ∈ env

theorem SpillCode.Local.within {sc : SpillCode} (h : sc.Local) (env : Set Reg) : sc.Within env := by
  intro fp off t x hx
  rcases h fp off t _ hx with h1 | h1
  · exact Or.inl h1
  · exact Or.inr (Or.inl (Option.some.inj h1))

namespace Allocation

variable {cat : Catalog} {sc : SpillCode} {k n : Nat} {fp : Option Reg} {env : Set Reg} {s₀ : Supply}
  {code : Code} {x x' : Round} {st s s' : State}

/-! ### Registers of all rounds -/

/-- The registers of a round are the given ones, or were made since. -/
structure Drawn (env : Set Reg) (fp : Option Reg) (s₀ : Supply) (x : Round) (s : State) : Prop where
  grows : s₀.Grows s.supply
  frame : ∀ f, s.frame = some f → f.fp = fp
  regs : ∀ r, some r ∈ x.code.regs → r ∈ env ∨ s₀.Made s.supply r

theorem Drawn.goesOn (hnd : cat.regs.Nodup) (hsc : sc.Within env) (hfp : ∀ r, fp = some r → r ∈ env)
    (h : Drawn env fp s₀ x s) (hgo : GoesOn cat sc k fp n x s x' s') : Drawn env fp s₀ x' s' := by
  obtain ⟨g, c, f, ns, rs, -, -, -, hf, -, -, -, -, -, hcode, hframe, hsupply⟩ := hgo.spec hnd
  obtain ⟨hgrow, hfp'⟩ := Code.grows_spillEach sc rs x.code f s.supply
  rw [← hsupply] at hgrow
  refine ⟨h.grows.trans hgrow, fun f' hf' => ?_, fun r hr => ?_⟩
  · rw [hframe] at hf'
    cases hf'
    exact hfp'.trans (h.frame f hf)
  · rw [hcode] at hr
    rcases Code.mem_regs_spillEach_made hr with h1 | ⟨t, h1, h2⟩
    · exact (h.regs r h1).imp id fun h1 => h1.mono (.refl _) hgrow
    · rw [← hsupply] at h1
      have hmade := h1.mono h.grows (.refl _)
      rcases h2 with h2 | ⟨off, h2⟩
      · cases h2
        exact Or.inr hmade
      · rcases hsc _ _ _ _ h2 with h2 | rfl | h2
        · exact Or.inl (hfp r ((h.frame f hf).symm.trans h2.symm))
        · exact Or.inr hmade
        · exact Or.inl h2

theorem Starts.drawn (hnd : cat.regs.Nodup) (hsc : sc.Within env) (hfp : ∀ r, fp = some r → r ∈ env)
    (hframe : ∀ f, st.frame = some f → f.fp = fp) (hcode : ∀ r, some r ∈ code.regs → r ∈ env)
    (h : Starts cat sc k fp code st n x s) : Drawn env fp st.supply x s := by
  induction h with
  | first => exact ⟨.refl _, hframe, fun r hr => Or.inl (hcode r hr)⟩
  | next _ hgo ih => exact ih.goesOn hnd hsc hfp hgo

/-- A register of a round that has the number of a given one is that one. -/
theorem Drawn.eq_of_id (h : Drawn env fp s₀ x s) (henv : s₀.Owns env) {r w : Reg} (hr : r ∈ env)
    (hw : some w ∈ x.code.regs) (hid : w.id = r.id) : w = r := by
  rcases h.regs w hw with h1 | h1
  · exact henv.inj w h1 r hr hid
  · have := henv.old r hr
    have := h1.le
    omega

theorem Drawn.numbered (h : Drawn env fp s₀ x s) (henv : s₀.Owns env)
    (hfp : ∀ r, fp = some r → r ∈ env) : Numbered x.code fp := by
  have hfrom : ∀ r, some r ∈ fp :: x.code.regs → r ∈ env ∪ {r | ∃ s', s₀.Made s' r} := by
    intro r hr
    rcases mem_cons.mp hr with hr | hr
    · exact .inl (hfp r hr.symm)
    · exact (h.regs r hr).imp_right fun hmade => ⟨s.supply, hmade⟩
  exact fun r w hr hw => henv.eq_of_id (hfrom r hr) (hfrom w hw)

/-! ### The map -/

/-- What the map and the groups of a result say about each register. -/
structure Assigns (cat : Catalog) (k : Nat) (fp : Option Reg) (res : Result) : Prop where
  complete : ∀ r ∈ res.code.regs, r ≠ fp →
    ∃ v q, r = some v ∧ res.map.get? v = some q ∧ some q ∈ cat.regs
  stable : ∀ q, some q ∈ cat.regs → res.map.resolve q = q ∧
    (some q ∈ res.code.regs → some q ≠ fp → res.map.get? q = some q)
  bounded : ∀ v, some v ∈ res.code.regs → some v ≠ fp → some v ∉ cat.regs →
    ∃ q, res.map.get? v = some q ∧ some q ∈ cat.regs.take k
  disjoint : res.coalesced.flatten.Nodup
  merged : ∀ group ∈ res.coalesced, 2 ≤ group.length ∧
    ∃ q, ∀ r ∈ group, r ∈ res.code.regs ∧ ∃ v, r = some v ∧ res.map.get? v = some q
  heads : ∀ group ∈ res.coalesced, ∀ group' ∈ res.coalesced, ∀ r ∈ group.head?, r ∉ group'.tail

section Colored

variable {c : Coloring} {temps : List (Option Reg)} {g : Flow} {m : RegMap} {r : Option Reg}
  (hnd : cat.regs.Nodup) (hsome : none ∉ cat.regs) (hk : k ≤ cat.regs.length)
  (hg : Flow.ofCode code = .ok g) (hnum : Numbered code fp) (hadm : Admits cat fp code)
  (hc : c = (Coloring.ofCode cat k fp temps code g).run.1)
  (hm : m = readColors cat c (List.range c.size) .empty) (hnil : c.nodes.list .spilled = [])
include hnd hsome hk hg hnum hadm hc hm hnil

/-- Every node has a color and is sent to the machine register of that color, which is one of the
first ones if the node is virtual. -/
theorem exists_machine (hn : c.live.Names n r) : r ∈ code.regs ∧ r ≠ fp ∧ ∃ v color q, r = some v ∧
    c.colorOf n = some color ∧ cat.regs[color]? = some (some q) ∧ m.get? v = some q ∧
    (r ∉ cat.regs → color < k) := by
  obtain ⟨hready, -, hkk⟩ := Coloring.ready_ofCode hnd k fp temps hg
  obtain ⟨hr, hfp⟩ := ((describes_run hnd hg hc).named r).mp ⟨n, hn⟩
  have hn' := hn
  rw [hc, hready.live_run] at hn'
  obtain ⟨v, rfl⟩ : ∃ v, r = some v := by
    by_cases hmem : r ∈ cat.regs
    · exact Option.ne_none_iff_exists'.mp fun h => hsome (h ▸ hmem)
    · obtain ⟨v, h, -⟩ := hadm r hr hfp hmem
      exact ⟨v, h⟩
  obtain ⟨color, hcol⟩ : ∃ color, c.colorOf n = some color := by
    rcases hready.colored_or_spilled hn'.lt with h | h
    · exact hc ▸ h
    · rw [← hc, hnil] at h
      cases h
  have hvirt : some v ∉ cat.regs → color < k := by
    intro hout
    rw [← hkk]
    exact hready.color_lt_of_virtual hn'.lt
      (fun hp => hout ((hready.paints.precolored_iff hn').mp hp)) (hc ▸ hcol)
  have hlt : color < cat.regs.length := by
    by_cases hmem : some v ∈ cat.regs
    · obtain ⟨color', hcol'⟩ := getElem?_of_mem hmem
      rw [colorOf_of_regs hnd hg hc hn hcol'] at hcol
      cases hcol
      exact (List.getElem?_eq_some_iff.mp hcol').1
    · exact Nat.lt_of_lt_of_le (hvirt hmem) hk
  obtain ⟨q, hq⟩ := Option.ne_none_iff_exists'.mp fun h : cat.regs[color] = none =>
    hsome (h ▸ getElem_mem hlt)
  have hget := get?_eq_bind hnd hg hnum hc hm hn
  have hcolor : cat.regs[color]? = some (some q) := by rw [getElem?_eq_getElem hlt, hq]
  rw [hcol, Option.bind_some, getD_eq_getElem?_getD, hcolor] at hget
  exact ⟨hr, hfp, v, color, q, rfl, hcol, hcolor, hget, hvirt⟩

/-- What every register of the code is sent to. -/
theorem exists_machine_of_mem (hr : r ∈ code.regs) (hfp : r ≠ fp) : ∃ v q, r = some v ∧
    m.get? v = some q ∧ some q ∈ cat.regs ∧ (r ∈ cat.regs → v = q) ∧
    (r ∉ cat.regs → some q ∈ cat.regs.take k) := by
  obtain ⟨n, hn⟩ := ((describes_run hnd hg hc).named r).mpr ⟨hr, hfp⟩
  obtain ⟨-, -, v, color, q, rfl, hcol, hq, hget, hlt⟩ :=
    exists_machine hnd hsome hk hg hnum hadm hc hm hnil hn
  refine ⟨v, q, rfl, hget, mem_of_getElem? hq, fun hmem => ?_, fun hout => ?_⟩
  · -- a machine register has its own color
    obtain ⟨color', hcol'⟩ := getElem?_of_mem hmem
    rw [colorOf_of_regs hnd hg hc hn hcol'] at hcol
    cases hcol
    rw [hcol'] at hq
    cases hq
    rfl
  · refine mem_of_getElem? (i := color) ?_
    rw [getElem?_take_of_lt (hlt hout), hq]

theorem exists_machine_of_mem_groups {group : List (Option Reg)} (hgroup : group ∈ c.groups) :
    2 ≤ group.length ∧
      ∃ q, ∀ r ∈ group, r ∈ code.regs ∧ ∃ v, r = some v ∧ m.get? v = some q := by
  obtain ⟨hready, -, -⟩ := Coloring.ready_ofCode hnd k fp temps hg
  have hsize : c.size = (Coloring.ofCode cat k fp temps code g).size := by
    unfold Coloring.size
    rw [hc, hready.live_run]
  rw [Coloring.groups_eq] at hgroup
  obtain ⟨nodes, hnodes, rfl⟩ := mem_map.mp hgroup
  rw [hc] at hnodes
  obtain ⟨hlen, rep, hrep⟩ := hready.colorOf_eq_of_mem_groupNodes hnodes
  rw [← hc, ← hsize] at hrep
  have hassigned := fun n (hn : n ∈ nodes) => exists_machine hnd hsome hk hg hnum hadm hc hm hnil
    (Liveness.names_reg (hrep n hn).1)
  refine ⟨by rwa [length_map], ?_⟩
  obtain ⟨n₀, hn₀⟩ := exists_mem_of_length_pos (by omega : 0 < nodes.length)
  obtain ⟨-, -, v₀, color, q, -, hcol, hq, -⟩ := hassigned n₀ hn₀
  rw [(hrep n₀ hn₀).2] at hcol
  refine ⟨q, fun r hr => ?_⟩
  obtain ⟨n, hn, rfl⟩ := mem_map.mp hr
  obtain ⟨hmem, -, v, color', q', hv, hcol', hq', hget, -⟩ := hassigned n hn
  rw [(hrep n hn).2, hcol] at hcol'
  cases hcol'
  rw [hq] at hq'
  cases hq'
  exact ⟨hmem, v, hv, hget⟩

end Colored

theorem colorCount_le (cfg : Config) (n : Nat) : cfg.colorCount n ≤ n := by
  unfold Config.colorCount
  split
  · exact Nat.le_refl n
  · rename_i hc
    simp only [Bool.or_eq_true, decide_eq_true_eq, not_or] at hc
    omega

/-- If allocation succeeds, every register of its code other than the frame pointer is sent to an
allocatable register: an allocatable one to itself, a virtual one to one of the first `k`. The groups
of merged registers have no register in common, each has at least two, which are sent to one
register, and what begins a group is merged into none. All registers come from one supply. -/
theorem allocate_assigns {cat : Catalog} {sc : SpillCode} {cfg : Config} {code : Code} {st st' : State}
    {res : Result} {env : Set Reg} (hnd : cat.regs.Nodup) (hsome : none ∉ cat.regs)
    (henv : st.supply.Owns env) (hcode : ∀ r, some r ∈ code.regs → r ∈ env)
    (hfp : ∀ r, st.frame.bind (·.fp) = some r → r ∈ env) (hregs : ∀ r, some r ∈ cat.regs → r ∈ env)
    (hsc : sc.Within env) (hres : allocate cat sc cfg code st = .ok res st') :
    Assigns cat (cfg.colorCount cat.regs.length) (st.frame.bind (·.fp)) res := by
  obtain ⟨n, x, s, g, c, hstart, hg, -, hadm, hc, hnil, rfl⟩ := allocate_eq_ok hnd rfl rfl hres
  generalize hm : readColors cat c (List.range c.size) .empty = m
  have hdrawn := hstart.drawn hnd hsc hfp (fun f hf => by rw [hf]; rfl) hcode
  have hnum := hdrawn.numbered henv hfp
  have hk := colorCount_le cfg cat.regs.length
  have hmachine := fun r => exists_machine_of_mem hnd hsome hk hg hnum hadm hc hm.symm hnil (r := r)
  have hdisj : c.groups.flatten.Nodup := by
    rw [hc]
    exact (Coloring.ready_ofCode hnd _ _ x.temps hg).1.nodup_flatten_groups
  have hown : ∀ q, some q ∈ cat.regs → some q ∈ x.code.regs → some q ≠ st.frame.bind (·.fp) →
      m.get? q = some q := by
    intro q hq hr hne
    obtain ⟨v, q', h1, h2, -, h3, -⟩ := hmachine _ hr hne
    cases h1
    rw [h2, h3 hq]
  refine ⟨fun r hr hne => ?_, fun q hq => ⟨?_, hown q hq⟩, fun v hr hne hout => ?_, hdisj,
    fun group => exists_machine_of_mem_groups hnd hsome hk hg hnum hadm hc hm.symm hnil,
    fun group hgroup group' hgroup' r hr hr' => ?_⟩
  · obtain ⟨v, q, h1, h2, h3, -, -⟩ := hmachine r hr hne
    exact ⟨v, q, h1, h2, h3⟩
  · by_cases hr : some q ∈ x.code.regs ∧ some q ≠ st.frame.bind (·.fp)
    · show (m.get? q).getD q = q
      rw [hown q hq hr.1 hr.2]
      rfl
    · -- no register of the code has its number
      have hget : m.get? q = none := by
        refine get?_eq_none hnd hg hc hm.symm fun w h1 h2 hid => ?_
        obtain rfl := hdrawn.eq_of_id henv (hregs q hq) h1 hid
        exact hr ⟨h1, h2⟩
      show (m.get? q).getD q = q
      rw [hget]
      rfl
  · obtain ⟨v', q, h1, h2, -, -, h3⟩ := hmachine _ hr hne
    cases h1
    exact ⟨q, h2, h3 hout⟩
  · obtain ⟨hnodup, hpair⟩ := nodup_flatten.mp hdisj
    obtain ⟨rest, rfl⟩ := head?_eq_some_iff.mp hr
    by_cases heq : r :: rest = group'
    · subst heq
      exact (nodup_cons.mp (hnodup _ hgroup')).1 hr'
    · have hsymm : Std.Symm fun l l' : List (Option Reg) => l.Disjoint l' := ⟨fun _ _ h => h.symm⟩
      exact hpair.forall hgroup hgroup' heq mem_cons_self (mem_of_mem_tail hr')

/-- Both registers are spilled before counting up fits, and what stands in for them in the copy is
merged. -/
theorem countUp_assigned : ∃ res st',
    allocate tinyMachine Target.Amd64.dialect.spillCode {} countUp tinyState = .ok res st' ∧
      res.rounds = 3 ∧ res.coalesced = [[some ⟨0, 4, ""⟩, some ⟨0, 6, ""⟩]] ∧
      Assigns tinyMachine 1 (some ⟨0, 1, "fp"⟩) res := by
  have hrun : Pass.Ends (allocate tinyMachine Target.Amd64.dialect.spillCode {} countUp) tinyState
      (fun res _ => res.rounds = 3 ∧ res.coalesced = [[some ⟨0, 4, ""⟩, some ⟨0, 6, ""⟩]])
      fun _ => False := by decide +kernel
  obtain ⟨res, st', hres, h1, h2⟩ := hrun.returns
  have hold : ∀ r ∈ [(⟨0, 0, "a"⟩ : Reg), ⟨0, 1, "fp"⟩, ⟨0, 2, ""⟩, ⟨0, 3, ""⟩],
      r.id < tinyState.supply.regs := by decide
  have hinj : ∀ r ∈ [(⟨0, 0, "a"⟩ : Reg), ⟨0, 1, "fp"⟩, ⟨0, 2, ""⟩, ⟨0, 3, ""⟩],
      ∀ w ∈ [(⟨0, 0, "a"⟩ : Reg), ⟨0, 1, "fp"⟩, ⟨0, 2, ""⟩, ⟨0, 3, ""⟩],
      r.id = w.id → r = w := by decide
  have henv : tinyState.supply.Owns
      {r | r ∈ [(⟨0, 0, "a"⟩ : Reg), ⟨0, 1, "fp"⟩, ⟨0, 2, ""⟩, ⟨0, 3, ""⟩]} := ⟨hold, hinj⟩
  have hregs : ∀ o ∈ countUp.regs ++ tinyState.frame.bind (·.fp) :: tinyMachine.regs, ∀ r ∈ o,
      r ∈ [(⟨0, 0, "a"⟩ : Reg), ⟨0, 1, "fp"⟩, ⟨0, 2, ""⟩, ⟨0, 3, ""⟩] := by decide
  refine ⟨res, st', hres, h1, h2, allocate_assigns (by decide) (by decide) henv (fun r hr => ?_)
    (fun r hr => ?_) (fun r hr => ?_) (Target.Amd64.dialect.spillCode_local.within _) hres⟩
  · exact hregs _ (mem_append_left _ hr) r rfl
  · exact hregs _ (mem_append_right _ mem_cons_self) r hr
  · exact hregs _ (mem_append_right _ (mem_cons_of_mem _ hr)) r rfl

end Allocation

end Codegen
