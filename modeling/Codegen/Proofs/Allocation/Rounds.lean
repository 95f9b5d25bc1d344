import Codegen.Allocation
import Codegen.Proofs.Coloring.Run
import Codegen.Proofs.Pass
import Codegen.Proofs.Spill

/-!
# Rounds of allocation

How a round fails (`Fails`), and the rounds that an allocation starts (`Starts`): the first one on the
given code, and after a round that leaves registers without a color one more on the code in which they
are spilled. Allocation goes through these and no others (`Starts.rounds_eq`); its result is read off
the last of them (`allocate_eq_ok`), and if there is none one of them fails or all are started
(`Starts.ends`).
-/

namespace Codegen.Allocation

open Pass List

variable {cat : Catalog} {sc : SpillCode} {k n total left : Nat} {fp : Option Reg} {code code' : Code}
  {st st' s s' s₁ : State} {err : Failure → Prop}

/-- States that differ in what was told at most. -/
structure SameStore (st st' : State) : Prop where
  supply : st'.supply = st.supply
  frame : st'.frame = st.frame

theorem SameStore.trans {st st' st'' : State} (h : SameStore st st') (h' : SameStore st' st'') :
    SameStore st st'' := ⟨h'.supply.trans h.supply, h'.frame.trans h.frame⟩

/-! ### The parts of a round -/

theorem ends_tell {events : Array Event} {ok : Unit → State → Prop}
    (h : ∀ st', SameStore st st' → ok () st') : Ends (tell events) st ok err :=
  ends_modify.mpr (h _ ⟨rfl, rfl⟩)

/-- Registers of the code other than the frame pointer that can not be allocated are virtual. -/
def Admits (cat : Catalog) (fp : Option Reg) (code : Code) : Prop :=
  ∀ r ∈ code.regs, r ≠ fp → r ∉ cat.regs → ∃ v, r = some v ∧ cat.isMachine v = false

theorem ends_checkMachine {c : Coloring} (ns : List Nat)
    (h : ∀ n ∈ ns, c.node n ≠ .precolored →
      (c.live.reg n = none → err .trap) ∧
        ∀ r, c.live.reg n = some r → cat.isMachine r = true → err (.error (.notAllocatable (some r)))) :
    Ends (checkMachine cat c ns) st (fun _ st' => st' = st ∧ ∀ n ∈ ns, c.node n ≠ .precolored →
      ∃ v, c.live.reg n = some v ∧ cat.isMachine v = false) err := by
  induction ns with
  | nil => exact ends_pure.mpr ⟨rfl, nofun⟩
  | cons n rest ih =>
    have ih' := ih fun x hx => h x (mem_cons_of_mem n hx)
    unfold checkMachine
    split
    · rename_i hm
      refine ih'.imp fun _ st' hst => ⟨hst.1, fun x hx hp => ?_⟩
      rcases mem_cons.mp hx with rfl | hx
      · exact absurd (Coloring.isMachine_iff.mp hm) hp
      · exact hst.2 x hx hp
    · rename_i hm
      obtain ⟨h1, h2⟩ := h n mem_cons_self fun hp => hm (Coloring.isMachine_iff.mpr hp)
      split
      · rename_i hr
        exact ends_trap.mpr (h1 hr)
      · rename_i r hr
        split
        · rename_i hmach
          exact ends_fail.mpr (h2 r hr hmach)
        · rename_i hmach
          refine ih'.imp fun _ st' hst => ⟨hst.1, fun x hx hp => ?_⟩
          rcases mem_cons.mp hx with rfl | hx
          · exact ⟨r, hr, Bool.eq_false_iff.mpr hmach⟩
          · exact hst.2 x hx hp

/-- Read the machine registers of nodes off a coloring. -/
def readColors (cat : Catalog) (c : Coloring) (ns : List Nat) (m : RegMap) : RegMap :=
  ns.foldl (fun m n =>
    match c.colorOf n, c.live.reg n with
    | some color, some r => m.assign r (cat.regs.getD color none)
    | _, _ => m) m

theorem ends_regMap {c : Coloring} (ns : List Nat) (m : RegMap)
    (htrap : ∀ n ∈ ns, c.colorOf n ≠ none → c.live.reg n = none → err .trap) :
    Ends (regMap cat c ns m) st (fun m' st' => m' = readColors cat c ns m ∧ st' = st) err := by
  induction ns generalizing m with
  | nil => exact ends_pure.mpr ⟨rfl, rfl⟩
  | cons n rest ih =>
    rw [readColors, foldl_cons, ← readColors]
    have htrap' := fun x hx => htrap x (mem_cons_of_mem n hx)
    unfold regMap
    split
    · rename_i hc
      rw [hc]
      exact ih m htrap'
    · rename_i color hc hr
      exact ends_trap.mpr (htrap n mem_cons_self (by rw [hc]; simp) hr)
    · rename_i color r hc hr
      rw [hc, hr]
      exact ih _ htrap'

theorem ends_spillAll_frame {l : Liveness} {ok : Code → State → Prop} (ns : List Nat) {f : Frame}
    (hf : st.frame = some f)
    (hok : ∀ st', st'.frame = some (Code.spillEach sc (ns.map l.reg) code f st.supply).2.1 →
      st'.supply = (Code.spillEach sc (ns.map l.reg) code f st.supply).2.2 →
      ok (Code.spillEach sc (ns.map l.reg) code f st.supply).1 st') :
    Ends (spillAll sc l ns code) st ok err := by
  induction ns generalizing code st f with
  | nil => exact ends_pure.mpr (hok st hf rfl)
  | cons n rest ih =>
    unfold spillAll
    rw [ends_bind]
    refine ends_tell fun st1 h1 => ?_
    rw [ends_bind, ends_get]
    rw [h1.frame, hf]
    dsimp only
    rw [ends_bind, ends_step]
    refine ih rfl fun st' h2 h3 => ?_
    rw [h1.supply] at h2 h3 ⊢
    exact hok st' h2 h3

theorem ends_spillAll {l : Liveness} {ok : Code → State → Prop} (ns : List Nat)
    (htrap : st.frame = none → err .trap)
    (hok : ∀ f st', st.frame = some f →
      st'.frame = some (Code.spillEach sc (ns.map l.reg) code f st.supply).2.1 →
      st'.supply = (Code.spillEach sc (ns.map l.reg) code f st.supply).2.2 →
      ok (Code.spillEach sc (ns.map l.reg) code f st.supply).1 st') (hne : ns ≠ []) :
    Ends (spillAll sc l ns code) st ok err := by
  cases hf : st.frame with
  | none =>
    cases ns with
    | nil => exact absurd rfl hne
    | cons n rest =>
      unfold spillAll
      rw [ends_bind]
      refine ends_tell fun st1 h1 => ?_
      rw [ends_bind, ends_get, h1.frame, hf]
      exact ends_trap.mpr (htrap hf)
  | some f => exact ends_spillAll_frame ns hf fun st' => hok f st' hf

/-! ### A whole round -/

/-- The ways in which a round fails. -/
inductive Fails (cat : Catalog) (k : Nat) (fp : Option Reg) (x : Round) (s : State) : Failure → Prop
  | flow {e : Error} (h : Flow.ofCode x.code = .error e) :
      Fails cat k fp x s (.error (.within .flowGraph e))
  /-- There is a machine register that can not be allocated. -/
  | machine {r : Reg} (hr : some r ∈ x.code.regs) (hfp : some r ≠ fp) (hout : some r ∉ cat.regs)
      (hm : cat.isMachine r = true) : Fails cat k fp x s (.error (.notAllocatable (some r)))
  | absent (hr : none ∈ x.code.regs) (hfp : none ≠ fp) : Fails cat k fp x s .trap
  /-- All that is left without a color was made for spills. -/
  | stuck {g : Flow} {c : Coloring} {first : Nat} {rest : List Nat} (hg : Flow.ofCode x.code = .ok g)
      (hc : c = (Coloring.ofCode cat k fp x.temps x.code g).run.1)
      (hfailed : c.nodes.list .spilled = first :: rest)
      (hall : ∀ n ∈ first :: rest, c.temporaries.contains n = true) :
      Fails cat k fp x s (.error (.temporaryStuck (c.live.reg first) k))
  /-- There is no frame to spill to. -/
  | frameless {g : Flow} {c : Coloring} (hg : Flow.ofCode x.code = .ok g)
      (hc : c = (Coloring.ofCode cat k fp x.temps x.code g).run.1)
      (hfailed : c.nodes.list .spilled ≠ []) (hframe : s.frame = none) : Fails cat k fp x s .trap

/-- How coloring the code of a round ends. -/
theorem ends_color (hnd : cat.regs.Nodup) (x : Round) :
    Ends (color cat k fp x.temps x.code) s (fun c s₁ => ∃ g, Flow.ofCode x.code = .ok g ∧
      SameStore s s₁ ∧ Admits cat fp x.code ∧ c = (Coloring.ofCode cat k fp x.temps x.code g).run.1)
      (Fails cat k fp x s) := by
  unfold color
  cases hg : Flow.ofCode x.code with
  | error e => exact ends_fail.mpr (.flow hg)
  | ok g =>
    dsimp only
    obtain ⟨hready, hdesc, -⟩ := Coloring.ready_ofCode hnd k fp x.temps hg
    -- a node that is no machine register of the catalog belongs to a register outside of it
    have hout : ∀ n, n < (precolorAll cat (.start (.ofFlow g x.code fp) k)).size →
        (precolorAll cat (.start (.ofFlow g x.code fp) k)).node n ≠ .precolored →
        ∀ r, (precolorAll cat (.start (.ofFlow g x.code fp) k)).live.reg n = r →
          r ∈ x.code.regs ∧ r ≠ fp ∧ r ∉ cat.regs := by
      rintro n hn hp r rfl
      have hname : (Coloring.ofCode cat k fp x.temps x.code g).live.Names n
          ((Coloring.ofCode cat k fp x.temps x.code g).live.reg n) := Liveness.names_reg hn
      obtain ⟨h1, h2⟩ := (hdesc.named _).mp ⟨n, hname⟩
      exact ⟨h1, h2, fun h3 => hp ((hready.paints.precolored_iff hname).mpr h3)⟩
    refine (ends_checkMachine _ fun n hn hp => ?_).bind fun _ st' hst => ?_
    · have hn' := mem_range.mp hn
      refine ⟨fun hr => ?_, fun r hr hm => ?_⟩
      · obtain ⟨h1, h2, -⟩ := hout n hn' hp none hr
        exact .absent h1 h2
      · obtain ⟨h1, h2, h3⟩ := hout n hn' hp (some r) hr
        exact .machine h1 h2 h3 hm
    · obtain ⟨rfl, hpass⟩ := hst
      have hadm : Admits cat fp x.code := by
        intro r hr hfp hout
        obtain ⟨n, hn⟩ := (hdesc.named r).mpr ⟨hr, hfp⟩
        obtain ⟨v, h1, h2⟩ := hpass n (mem_range.mpr hn.lt) fun hp =>
          hout ((hready.paints.precolored_iff hn).mp hp)
        exact ⟨v, hn.reg_eq.symm.trans h1, h2⟩
      have hclash := hready.clash?_run
      rw [show markTemporaries x.temps (precolorAll cat (.start (.ofFlow g x.code fp) k)) =
        Coloring.ofCode cat k fp x.temps x.code g from rfl]
      generalize hrun : (Coloring.ofCode cat k fp x.temps x.code g).run = p at hclash ⊢
      obtain ⟨c, log⟩ := p
      dsimp only at hclash ⊢
      rw [ends_bind]
      refine ends_tell fun st'' hst => ?_
      rw [hclash]
      exact ends_pure.mpr ⟨g, rfl, hst, hadm, by rw [hrun]⟩

variable {x x' : Round} {c : Coloring} {chosen : List Nat} {res : Result}

theorem ends_attempt (hnd : cat.regs.Nodup) (n : Nat) (x : Round) :
    Ends (attempt cat k fp n x) s (fun p s₁ => ∃ g, Flow.ofCode x.code = .ok g ∧ SameStore s s₁ ∧
      Admits cat fp x.code ∧ p.1 = (Coloring.ofCode cat k fp x.temps x.code g).run.1 ∧
      p.2 = (p.1.nodes.list .spilled).filter (fun n => !p.1.temporaries.contains n) ∧
      (p.2 = [] → p.1.nodes.list .spilled = [])) (Fails cat k fp x s) := by
  refine (ends_color hnd x).bind ?_
  rintro c s₁ ⟨g, hg, hs, hadm, hc⟩
  rw [ends_bind]
  refine ends_tell fun s₂ hs₂ => ?_
  have hsame := hs.trans hs₂
  cases hfail : c.nodes.list .spilled with
  | nil => exact ends_pure.mpr ⟨g, hg, hsame, hadm, hc, by rw [hfail]; rfl, fun _ => hfail⟩
  | cons first rest =>
    dsimp only
    split
    · rename_i hnil
      exact ends_fail.mpr (.stuck hg hc hfail fun n hn => by
        simpa using filter_eq_nil_iff.mp hnil n hn)
    · rename_i hne
      refine ends_pure.mpr ⟨g, hg, hsame, hadm, hc, by rw [hfail], fun hnil => ?_⟩
      exact absurd hnil hne

theorem attempt_spec (hnd : cat.regs.Nodup) (h : attempt cat k fp n x s = .ok (c, chosen) s₁) :
    ∃ g, Flow.ofCode x.code = .ok g ∧ SameStore s s₁ ∧ Admits cat fp x.code ∧
      c = (Coloring.ofCode cat k fp x.temps x.code g).run.1 ∧
      chosen = (c.nodes.list .spilled).filter (fun n => !c.temporaries.contains n) ∧
      (chosen = [] → c.nodes.list .spilled = []) :=
  (ends_attempt hnd n x).of_ok h

theorem spillAll_spec {l : Liveness} {ns : List Nat} (h : spillAll sc l ns code s = .ok code' s')
    (hne : ns ≠ []) : ∃ f, s.frame = some f ∧
      code' = (Code.spillEach sc (ns.map l.reg) code f s.supply).1 ∧
      s'.frame = some (Code.spillEach sc (ns.map l.reg) code f s.supply).2.1 ∧
      s'.supply = (Code.spillEach sc (ns.map l.reg) code f s.supply).2.2 := by
  have hends : Ends (spillAll sc l ns code) s (fun code' s' => ∃ f, s.frame = some f ∧
      code' = (Code.spillEach sc (ns.map l.reg) code f s.supply).1 ∧
      s'.frame = some (Code.spillEach sc (ns.map l.reg) code f s.supply).2.1 ∧
      s'.supply = (Code.spillEach sc (ns.map l.reg) code f s.supply).2.2) fun _ => True :=
    ends_spillAll ns (fun _ => trivial) (fun f s' h1 h2 h3 => ⟨f, h1, rfl, h2, h3⟩) hne
  exact hends.of_ok h

/-! ### Rounds that are started -/

/-- Round `n` on `x` leaves registers without a color; the next round is to be on `x'`. -/
inductive GoesOn (cat : Catalog) (sc : SpillCode) (k : Nat) (fp : Option Reg) (n : Nat) (x : Round)
    (s : State) : Round → State → Prop
  | intro {c : Coloring} {chosen : List Nat} {s₁ s' : State} {code : Code}
      (attempted : attempt cat k fp n x s = .ok (c, chosen) s₁) (nonempty : chosen ≠ [])
      (moved : spillAll sc c.live chosen x.code s₁ = .ok code s') :
      GoesOn cat sc k fp n x s (x.after fp c.live chosen code) s'

/-- The rounds that come up one after the other, by their numbers. -/
inductive Starts (cat : Catalog) (sc : SpillCode) (k : Nat) (fp : Option Reg) (code : Code)
    (st : State) : Nat → Round → State → Prop
  | first : Starts cat sc k fp code st 1 { code } st
  | next {n : Nat} {x x' : Round} {s s' : State} (before : Starts cat sc k fp code st n x s)
      (goesOn : GoesOn cat sc k fp n x s x' s') : Starts cat sc k fp code st (n + 1) x' s'

/-- Everything that a round that goes on does. -/
theorem GoesOn.spec (hnd : cat.regs.Nodup) (h : GoesOn cat sc k fp n x s x' s') :
    ∃ g c f ns rs, Flow.ofCode x.code = .ok g ∧ Admits cat fp x.code ∧
      c = (Coloring.ofCode cat k fp x.temps x.code g).run.1 ∧ s.frame = some f ∧ ns ≠ [] ∧
      ns = (c.nodes.list .spilled).filter (fun n => !c.temporaries.contains n) ∧
      rs = ns.map c.live.reg ∧ x'.temps = x.temps ++ newRegs c.live fp x'.code ∧
      x'.spilled = x.spilled ++ rs ∧ x'.code = (Code.spillEach sc rs x.code f s.supply).1 ∧
      s'.frame = some (Code.spillEach sc rs x.code f s.supply).2.1 ∧
      s'.supply = (Code.spillEach sc rs x.code f s.supply).2.2 := by
  obtain ⟨h1, h2, h3⟩ := h
  obtain ⟨g, hg, hs, hadm, hc, hns, -⟩ := attempt_spec hnd h1
  obtain ⟨f, h4, h5, h6, h7⟩ := spillAll_spec h3 h2
  rw [hs.supply] at h5 h6 h7
  exact ⟨g, _, f, _, _, hg, hadm, hc, hs.frame ▸ h4, h2, hns, rfl, rfl, rfl, h5, h6, h7⟩

theorem GoesOn.rounds_eq (h : GoesOn cat sc k fp (total - left) x s x' s') :
    rounds cat sc k fp total (left + 1) x s = rounds cat sc k fp total left x' s' := by
  obtain ⟨h1, h2, h3⟩ := h
  rw [rounds]
  show EStateM.bind _ _ s = _
  rw [EStateM.bind, h1]
  dsimp only
  rw [if_neg h2]
  show EStateM.bind _ _ _ = _
  rw [EStateM.bind, h3]

theorem Starts.pos (h : Starts cat sc k fp code st n x s) : 0 < n := by
  cases h with
  | first => exact Nat.one_pos
  | next => exact Nat.succ_pos _

/-- Allocation goes through the rounds that come up, as long as it may start one more. -/
theorem Starts.rounds_eq (h : Starts cat sc k fp code st n x s) (hn : n ≤ total + 1) :
    rounds cat sc k fp total total { code } st = rounds cat sc k fp total (total + 1 - n) x s := by
  induction h with
  | first => rfl
  | @next n x x' s s' hx hgo ih =>
    have hpos := hx.pos
    obtain ⟨left, hleft⟩ : ∃ left, total = n + left := ⟨total - n, by omega⟩
    rw [ih (by omega), show total + 1 - n = left + 1 by omega,
      show total + 1 - (n + 1) = left by omega]
    refine GoesOn.rounds_eq ?_
    rwa [show total - left = n by omega]

/-- The result is read off the last round that was started. If there is none, a round failed or all
were started. -/
theorem Starts.ends (hnd : cat.regs.Nodup) (h : Starts cat sc k fp code st n x s)
    (hn : n + left = total + 1) :
    Ends (rounds cat sc k fp total left x) s
      (fun res st' => ∃ n x s c, Starts cat sc k fp code st n x s ∧
        attempt cat k fp n x s = .ok (c, []) st' ∧
        res = ⟨x.code, readColors cat c (List.range c.size) .empty, n, x.spilled, c.groups⟩)
      fun e => (∃ n x s, Starts cat sc k fp code st n x s ∧ Fails cat k fp x s e) ∨
        e = .error (.roundsSpent total) ∧ ∃ x s, Starts cat sc k fp code st (total + 1) x s := by
  induction left generalizing n x s with
  | zero => exact ends_fail.mpr (.inr ⟨rfl, x, s, hn ▸ h⟩)
  | succ left ih =>
    obtain rfl : n = total - left := by omega
    rw [rounds]
    refine Ends.bind ((ends_self.and (ends_attempt hnd _ x)).mono (fun _ _ hatt => hatt)
      fun e he => .inl ⟨_, x, s, h, he.2⟩) ?_
    rintro ⟨c, chosen⟩ s₁ ⟨hatt, g, hg, hs, -, hc, hchosen, -⟩
    dsimp only at hc hchosen ⊢
    split
    · rename_i hnil
      subst hnil
      have hmap : Ends (regMap cat c (List.range c.size) .empty) s₁
          (fun m s₂ => m = readColors cat c (List.range c.size) .empty ∧ s₂ = s₁)
          (Fails cat k fp x s) := by
        -- a node belongs to a register that is there
        refine ends_regMap _ _ fun m hm _ hr => ?_
        obtain ⟨hready, hdesc, -⟩ := Coloring.ready_ofCode hnd k fp x.temps hg
        have hname := Liveness.names_reg (mem_range.mp hm)
        rw [hr, hc, hready.live_run] at hname
        obtain ⟨h1, h2⟩ := (hdesc.named none).mp ⟨m, hname⟩
        exact .absent h1 h2
      refine (hmap.mono (fun _ _ => id) fun e he => .inl ⟨_, x, s, h, he⟩).bind ?_
      rintro map s₂ ⟨rfl, rfl⟩
      exact ends_pure.mpr ⟨_, x, s, c, h, hatt, rfl⟩
    · rename_i hne
      have hspill : Ends (spillAll sc c.live chosen x.code) s₁ (fun _ _ => True) (Fails cat k fp x s) := by
        refine ends_spillAll _ (fun hframe => ?_) (fun _ _ _ _ _ => trivial) hne
        refine .frameless hg hc (fun hnil => hne ?_) (hs.frame.symm.trans hframe)
        rw [hchosen, hnil]
        rfl
      exact Ends.bind ((ends_self.and hspill).mono (fun _ _ hspill => hspill.1)
        fun e he => .inl ⟨_, x, s, h, he.2⟩) fun code' s₂ hspill =>
        ih (h.next ⟨hatt, hne, hspill⟩) (by omega)

/-- Each round that went on has moved a register. -/
theorem Starts.le_length_spilled (hnd : cat.regs.Nodup) (h : Starts cat sc k fp code st n x s) :
    n ≤ x.spilled.length + 1 := by
  induction h with
  | first => exact Nat.le_refl 1
  | next _ hgo ih =>
    obtain ⟨g, c, f', ns, rs, -, -, -, -, hne, -, hrs, -, hspilled, -⟩ := hgo.spec hnd
    have hpos := length_pos_of_ne_nil hne
    rw [hspilled, length_append, hrs, length_map]
    omega

/-- If the rounds run out, all of them were started. -/
theorem Starts.of_roundsSpent (hnd : cat.regs.Nodup) (h : Starts cat sc k fp code st n x s)
    (hn : n + left = total + 1) {m : Nat}
    (hres : rounds cat sc k fp total left x s = .error (.error (.roundsSpent m)) st') :
    ∃ x s, Starts cat sc k fp code st (total + 1) x s := by
  obtain ⟨n, x, s, -, ⟨⟩⟩ | ⟨-, hlast⟩ := (h.ends hnd hn).of_error hres
  exact hlast

theorem allocate_eq_rounds {cfg : Config} (hk : cfg.colorCount cat.regs.length ≠ 0) :
    allocate cat sc cfg code st = rounds cat sc (cfg.colorCount cat.regs.length)
      (st.frame.bind (·.fp)) cfg.rounds cfg.rounds { code } st := by
  show (if _ then _ else _ : Run Result) st = _
  rw [if_neg hk]

theorem ends_allocate_iff {cfg : Config} {ok : Result → State → Prop} (hfp : st.frame.bind (·.fp) = fp)
    (hcount : cfg.colorCount cat.regs.length = k) (hk : k ≠ 0) :
    Ends (allocate cat sc cfg code) st ok err ↔
      Ends (rounds cat sc k fp cfg.rounds cfg.rounds { code }) st ok err := by
  unfold Ends
  rw [allocate_eq_rounds (hcount.symm ▸ hk), hfp, hcount]

theorem colorCount_ne_zero {cfg : Config} (hres : allocate cat sc cfg code st = .ok res st') :
    cfg.colorCount cat.regs.length ≠ 0 := by
  intro hk
  change (if _ then _ else _ : Run Result) st = _ at hres
  rw [if_pos hk] at hres
  cases hres

/-- The result of an allocation is read off the last round, in which nothing was spilled. -/
theorem allocate_eq_ok {cfg : Config} (hnd : cat.regs.Nodup) (hfp : st.frame.bind (·.fp) = fp)
    (hk : cfg.colorCount cat.regs.length = k) (hres : allocate cat sc cfg code st = .ok res st') :
    ∃ n x s g c, Starts cat sc k fp code st n x s ∧ Flow.ofCode x.code = .ok g ∧ SameStore s st' ∧
      Admits cat fp x.code ∧ c = (Coloring.ofCode cat k fp x.temps x.code g).run.1 ∧
      c.nodes.list .spilled = [] ∧
      res = ⟨x.code, readColors cat c (List.range c.size) .empty, n, x.spilled, c.groups⟩ := by
  rw [allocate_eq_rounds (colorCount_ne_zero hres), hfp, hk] at hres
  obtain ⟨n, x, s, c, hstart, hatt, hres⟩ := (Starts.first.ends hnd (Nat.add_comm 1 _)).of_ok hres
  obtain ⟨g, hg, hs, hadm, hc, -, hnil⟩ := attempt_spec hnd hatt
  exact ⟨n, x, s, g, c, hstart, hg, hs, hadm, hc, hnil rfl, hres⟩

end Codegen.Allocation
