import Codegen.Proofs.Allocation.Rounds
import Codegen.Target.Amd64

/-!
# The allocator's check of itself

Coloring never gives one color to two registers that are in use at the same time, so the only error
of its kind that allocation can report is about a machine register of the code that can not be
allocated.
-/

namespace Codegen.Allocation

open Pass

variable {cat : Catalog} {sc : SpillCode} {k : Nat} {fp : Option Reg}

/-- The machine registers of the catalog that came from the supply were handed out before. -/
def Known (cat : Catalog) (s : Supply) : Prop :=
  ∀ r ∈ cat.machine, r.pool = s.pool → r.id < s.regs

theorem Known.mono {s s' : Supply} (h : Known cat s) (hs : s.Grows s') : Known cat s' :=
  fun r hr hp => Nat.lt_of_lt_of_le (h r hr (hp.trans hs.pool)) hs.regs

/-- A register that was made later is not known to the catalog. -/
theorem Known.not_isMachine {s s' : Supply} {t : Reg} (h : Known cat s) (ht : s.Made s' t) :
    cat.isMachine t = false := by
  rw [Bool.eq_false_iff]
  intro hm
  have hfind : cat.reg? t.name = some t := by simpa [Catalog.isMachine] using hm
  have hmem := List.mem_reverse.mp (List.mem_of_find?_eq_some hfind)
  have := h t hmem ht.pool
  have := ht.le
  omega

/-- Code whose machine registers are those of the code that allocation began with. -/
def Stems (cat : Catalog) (fp : Option Reg) (code₀ code : Code) : Prop :=
  ∀ r, some r ∈ code.regs → some r ≠ fp → cat.isMachine r = true → some r ∈ code₀.regs

theorem Stems.spillEach {code₀ code : Code} {f : Frame} {s : Supply} (h : Stems cat fp code₀ code)
    (hsc : sc.Local) (hk : Known cat s) (hf : f.fp = fp) (rs : List (Option Reg)) :
    Stems cat fp code₀ (Code.spillEach sc rs code f s).1 := by
  intro r hr hfp hm
  rcases Code.mem_regs_spillEach hsc hr with h1 | h1 | ⟨t, h1, h2⟩
  · exact h r h1 hfp hm
  · exact absurd (h1.trans hf) hfp
  · cases h2
    rw [hk.not_isMachine h1] at hm
    cases hm

/-- No round brings in machine registers. -/
theorem Starts.stems {code : Code} {st s : State} {n : Nat} {x : Round} (hnd : cat.regs.Nodup)
    (hsc : sc.Local) (hk : Known cat st.supply) (hf : ∀ f, st.frame = some f → f.fp = fp)
    (h : Starts cat sc k fp code st n x s) :
    Stems cat fp code x.code ∧ Known cat s.supply ∧ ∀ f, s.frame = some f → f.fp = fp := by
  induction h with
  | first => exact ⟨fun r hr _ _ => hr, hk, hf⟩
  | @next n x x' s s' _ hgo ih =>
    obtain ⟨hstems, hknown, hfp⟩ := ih
    obtain ⟨g, c, f, ns, rs, -, -, -, hf, -, -, -, -, -, hcode, hframe, hsupply⟩ := hgo.spec hnd
    obtain ⟨hg1, hg2⟩ := Code.grows_spillEach sc rs x.code f s.supply
    refine ⟨hcode ▸ hstems.spillEach hsc hknown (hfp f hf) _, hsupply ▸ hknown.mono hg1, ?_⟩
    rintro f' hf'
    rw [hframe] at hf'
    cases hf'
    exact hg2.trans (hfp f hf)

/-- After every coloring that allocation sets up, of whatever round, the check for registers of one
color that are in use at the same time passes; so what allocation reports as a violated invariant is
a machine register of the code that is neither allocatable nor the frame pointer. The machine
registers of the catalog are taken to be older than what the supply still hands out. -/
theorem clash?_eq_none_and_blames (hnd : cat.regs.Nodup) :
    (∀ (k : Nat) (fp : Option Reg) (temps : List (Option Reg)) (code : Code) (g : Flow),
      Flow.ofCode code = .ok g →
      (markTemporaries temps (precolorAll cat (.start (.ofFlow g code fp) k))).run.1.clash? = none) ∧
    ∀ (d : Dialect) (cfg : Config) (code : Code) (st st' : State) (e : Error),
      (∀ r ∈ cat.machine, r.pool = st.supply.pool → r.id < st.supply.regs) →
      allocate cat d.spillCode cfg code st = .error (.error e) st' → e.kind = .invariant →
      ∃ r, e = .notAllocatable (some r) ∧ some r ∈ code.regs ∧ cat.isMachine r = true ∧
        some r ∉ cat.regs ∧ some r ≠ st.frame.bind (·.fp) := by
  refine ⟨fun k fp temps code g hg => (Coloring.ready_ofCode hnd k fp temps hg).1.clash?_run, ?_⟩
  intro d cfg code st st' e hk he hkind
  by_cases hcount : cfg.colorCount cat.regs.length = 0
  · change (if _ then _ else _ : Run Result) st = _ at he
    rw [if_pos hcount] at he
    cases he
    cases hkind
  rw [allocate_eq_rounds hcount] at he
  obtain ⟨n, x, s, hstart, hfails⟩ | ⟨⟨⟩, -⟩ := (Starts.first.ends hnd (Nat.add_comm 1 _)).of_error he
  · cases hfails with
    | flow hflow =>
      rcases Flow.ofCode_error hflow with ⟨l, j, i, rfl, -⟩ | ⟨-, i, x, d, rfl, -⟩ <;> cases hkind
    | machine hr hfp hout hm =>
      obtain ⟨hstems, -⟩ := hstart.stems hnd d.spillCode_local hk fun f hf => by rw [hf]; rfl
      exact ⟨_, rfl, hstems _ hr hfp hm, hm, hout, hfp⟩
    | stuck => cases hkind
  · cases hkind

/-- A machine with two registers, of which only the first may be allocated. -/
def stackMachine : Catalog :=
  { name := "stack", machine := [⟨0, 0, "a"⟩, ⟨0, 1, "sp"⟩], regs := [some ⟨0, 0, "a"⟩] }

/-- Code that reads the stack pointer while a virtual register and its copy are live. -/
def peekCode : Code :=
  [{ text := "peek &o0", reads := [some ⟨0, 1, "sp"⟩], writes := [some ⟨0, 2, ""⟩] },
    .copy "mov &o0, &i0" (some ⟨0, 3, ""⟩) (some ⟨0, 2, ""⟩),
    { text := "use &i0, &i1", reads := [some ⟨0, 2, ""⟩, some ⟨0, 3, ""⟩] }]

theorem peekCode_blames_stack_pointer :
    stackMachine.regs.Nodup ∧
      (∃ g, Flow.ofCode peekCode = .ok g ∧
        (markTemporaries [] (precolorAll stackMachine
          (.start (.ofFlow g peekCode none) 1))).run.1.clash? = none) ∧
      ∃ e st', allocate stackMachine Target.Amd64.dialect.spillCode {} peekCode
          { supply := { regs := 4 } } = .error (.error e) st' ∧
        ∃ r, e = .notAllocatable (some r) ∧ some r ∈ peekCode.regs ∧
          stackMachine.isMachine r = true ∧ some r ∉ stackMachine.regs ∧ some r ≠ none := by
  have hnd : stackMachine.regs.Nodup := by decide
  obtain ⟨h1, h2⟩ := clash?_eq_none_and_blames hnd
  have hflow : Flow.ofCode peekCode = .ok ⟨#[[1], [2], []], #[[], [0], [1]]⟩ := by rfl
  have hrun : Ends (allocate stackMachine Target.Amd64.dialect.spillCode {} peekCode)
      { supply := { regs := 4 } } (fun _ _ => False) fun e => e.kind? = some .invariant := by
    decide +kernel
  obtain ⟨e, st', he, hkind⟩ := hrun.fails
  exact ⟨hnd, ⟨_, hflow, h1 1 none [] peekCode _ hflow⟩, e, st', he,
    h2 Target.Amd64.dialect {} peekCode { supply := { regs := 4 } } st' e (by decide) he hkind⟩

end Codegen.Allocation
