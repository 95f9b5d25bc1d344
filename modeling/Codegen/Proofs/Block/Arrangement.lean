import Codegen.Proofs.Block.Order
import Codegen.Proofs.Block.Shape

/-!
# How arranged statements are laid out

A list of statements falls into blocks, one after the other (`Divides`). Arranging puts them in the
greedy order of traces and writes each of them out whole, with the jump at its end changed as the block
that follows requires (`WrittenOut`): every conditional jump is in front of the place of its false label
and no jump is in front of the place that it leads to (`Seamless`).
-/

namespace Codegen.Semantics

open Block Pass List

variable {s s₁ s' : Supply} {xs list rest : List Stmt} {exit next : Option Label}
  {blocks : List Block} {e : Exit} {leave : List Stmt}

/-! ### Writing blocks out -/

/-- What may be behind a statement: the place of its false label behind a conditional jump, and anything
but the place of the label behind a jump to a label. -/
def Fits : Stmt → List Stmt → Prop
  | .cjump _ _ _ _ f, rest => ∃ r, rest = .place f :: r
  | .jump (.addr l) _, rest => ∀ r, rest ≠ .place l :: r
  | _, _ => True

/-- Every statement of a list fits what is behind it. -/
def Seamless (list : List Stmt) : Prop := ∀ x rest, x :: rest <:+ list → Fits x rest

theorem seamless_cons {x : Stmt} : Seamless (x :: rest) ↔ Fits x rest ∧ Seamless rest := by
  constructor
  · intro h
    exact ⟨h x rest suffix_rfl, fun y r hr => h y r (hr.trans (suffix_cons x rest))⟩
  · rintro ⟨hx, hrest⟩ y r hr
    rcases suffix_cons_iff.mp hr with heq | hr
    · cases heq
      exact hx
    · exact hrest y r hr

theorem fits_of_isInner {x : Stmt} (h : isInner x = true) (rest : List Stmt) : Fits x rest := by
  cases x with
  | jump | cjump | place => cases h
  | missing | move | eval | seq => trivial

theorem Seamless.append_inner (h : Seamless list) (hxs : ∀ x ∈ xs, isInner x = true) :
    Seamless (xs ++ list) := by
  induction xs with
  | nil => exact h
  | cons x xs ih =>
    obtain ⟨hx, hxs⟩ := forall_mem_cons.mp hxs
    exact seamless_cons.mpr ⟨fits_of_isInner hx _, ih hxs⟩

/-- A block is left so that everything fits in front of the place that follows. -/
theorem exitStmts_seamless : Ends (exitStmts next e) s
    (fun leave _ => ∀ rest, Seamless (.place next :: rest) → Seamless (leave ++ .place next :: rest))
    fun _ => True := by
  unfold exitStmts
  split
  · rename_i d targets
    split
    · rename_i l
      split
      · exact ends_pure.mpr fun rest h => h
      · rename_i hl
        refine ends_pure.mpr fun rest h => seamless_cons.mpr ⟨fun r hr => hl ?_, h⟩
        cases hr
        rfl
    · rename_i hd
      refine ends_pure.mpr fun rest h => seamless_cons.mpr ⟨?_, h⟩
      cases d with
      | addr l => exact absurd rfl (hd l)
      | missing | int | temp | bin | mem | call | eseq => trivial
  · rename_i c l r t f
    split
    · rename_i hf
      exact ends_pure.mpr fun rest h => seamless_cons.mpr ⟨⟨rest, by rw [hf]; rfl⟩, h⟩
    · rename_i hf
      split
      · rename_i ht
        rw [ends_bind]
        refine ends_orTrap (fun c' _ => ?_) fun _ => trivial
        exact ends_pure.mpr fun rest h => seamless_cons.mpr ⟨⟨rest, by rw [ht]; rfl⟩, h⟩
      · rw [ends_bind]
        refine ends_freshLabel.mono (fun m s₁ _ => ends_pure.mpr fun rest h => ?_) nofun
        refine seamless_cons.mpr ⟨⟨_, rfl⟩, seamless_cons.mpr ⟨trivial, seamless_cons.mpr ⟨?_, h⟩⟩⟩
        intro r hr
        cases hr
        exact hf rfl

theorem Leave.filter_isInner (h : Leave s s' next e leave) : leave.filter isInner = [] := by
  cases h with
  | fall | jump | branch | inverted | detour => rfl

/-- Blocks that are written out whole, one after the other, each left as the next one requires, and the
place of the exit behind them. -/
inductive WrittenOut (s s' : Supply) (exit : Option Label) : List Block → List Stmt → Prop
  | exit : WrittenOut s s' exit [] [.place exit]
  | block {b : Block} {blocks : List Block} {leave list : List Stmt}
      (hleave : Leave s s' (firstLabel exit blocks) b.exit leave) (h : WrittenOut s s' exit blocks list) :
      WrittenOut s s' exit (b :: blocks) (.place b.label :: b.body ++ leave ++ list)

namespace WrittenOut

theorem mono (h : WrittenOut s₁ s' exit blocks list) (hs : s.MoreLabels s₁) :
    WrittenOut s s' exit blocks list := by
  induction h with
  | exit => exact .exit
  | block hleave _ ih => exact .block (hleave.mono hs) ih

theorem head (h : WrittenOut s s' exit blocks list) :
    ∃ rest, list = .place (firstLabel exit blocks) :: rest := by
  cases h with
  | exit => exact ⟨[], rfl⟩
  | block => exact ⟨_, rfl⟩

/-- Nothing is added to the bodies but jumps and places. -/
theorem filter_isInner (h : WrittenOut s s' exit blocks list)
    (hinner : ∀ b ∈ blocks, ∀ x ∈ b.body, isInner x = true) :
    list.filter isInner = blocks.flatMap (·.body) := by
  induction h with
  | exit => rfl
  | block hleave _ ih =>
    obtain ⟨hb, hblocks⟩ := forall_mem_cons.mp hinner
    rw [filter_append, filter_append, hleave.filter_isInner, ih hblocks, append_nil,
      flatMap_cons]
    exact congrArg (· ++ _) (filter_eq_self.mpr hb)

end WrittenOut

theorem layout_writtenOut (hinv : ∀ b ∈ blocks, Invertible b.exit)
    (hinner : ∀ b ∈ blocks, ∀ x ∈ b.body, isInner x = true) :
    Ends (layout exit blocks) s
      (fun list s' => s.MoreLabels s' ∧ WrittenOut s s' exit blocks list ∧ Seamless list)
      fun _ => False := by
  induction blocks generalizing s with
  | nil =>
    have hnil : Seamless [] := fun x rest h => nomatch suffix_nil.mp h
    exact ends_pure.mpr ⟨.refl s, .exit, seamless_cons.mpr ⟨trivial, hnil⟩⟩
  | cons b blocks ih =>
    obtain ⟨hb, hinv⟩ := forall_mem_cons.mp hinv
    obtain ⟨hbody, hinner⟩ := forall_mem_cons.mp hinner
    rw [layout, ends_bind]
    refine (exitStmts_ends.and exitStmts_seamless).mono (fun leave s₁ h1 => ?_) fun _ h => h.1 hb
    obtain ⟨⟨⟨-, hs₁⟩, hleave⟩, hseam⟩ := h1
    refine (ih hinv hinner).bind fun list s₂ h2 => ends_pure.mpr ?_
    obtain ⟨hs₂, hwritten, hseamless⟩ := h2
    refine ⟨hs₁.trans hs₂, .block (hleave.extend hs₂) (hwritten.mono hs₁), ?_⟩
    obtain ⟨rest, rfl⟩ := hwritten.head
    rw [cons_append, cons_append, append_assoc]
    exact seamless_cons.mpr ⟨trivial, (hseam rest hseamless).append_inner hbody⟩

/-! ### Arranging -/

/-- A list of statements and its blocks, in the order in which they are written out with the label `m` at
the end. -/
structure GreedyLayout (s s' : Supply) (m : Label) (xs : List Stmt) (blocks ordered : List Block)
    (list : List Stmt) : Prop where
  divided : BlocksOf (s.MadeLabel s') (some m) xs blocks
  greedy : Greedy none blocks ordered
  first : ordered.head? = blocks.head?
  written : WrittenOut s s' (some m) ordered list
  seamless : Seamless list
  last : [.place (some m)] <:+ list
  exit_made : s.MadeLabel s' m
  inner : (list.filter isInner).Perm (xs.filter isInner)
  places : placed xs ⊆ placed list
  once : (placed list).Nodup
  label_cases : ∀ l ∈ placed list, l ∈ placed xs ∨ ∃ m, l = some m ∧ s.MadeLabel s' m

end Codegen.Semantics

namespace Codegen.Block

open Semantics Pass List

/-- **Layout of arranged statements.** A list of statements that can be arranged is arranged, and the
result has its blocks in the greedy order, from the first one to the exit, each of them whole. Every
conditional jump is followed by the place of its false label and no jump by the place of its own;
statements other than jumps and places of labels are there once, and other labels are fresh and placed
once. -/
theorem arrangeStmt_greedyLayout {x : Stmt} {s : Supply} (hx : Arrangeable s x.flatten) :
    ∃ list s' m blocks ordered, arrangeStmt x s = .ok (.seq list) s' ∧
      GreedyLayout s s' m x.flatten blocks ordered list := by
  have hends : Ends (arrangeStmt x) s (fun y s' => ∃ list m blocks ordered, y = .seq list ∧
      GreedyLayout s s' m x.flatten blocks ordered list) fun _ => False := by
    rw [arrangeStmt, ends_bind]
    refine ends_freshLabel.mono (fun m s₁ h1 => ?_) fun _ h => h
    obtain ⟨hm, hs₁⟩ := h1
    have hx₁ := hx.mono hs₁
    rw [ends_bind]
    refine ((ofStmt_ends hx₁).and ofStmt_blocksOf).mono (fun blocks s₂ h2 => ?_) fun _ h => h.1
    obtain ⟨⟨hs₂, hcuts, -⟩, -, hblocks⟩ := h2
    have hcuts' := hcuts.perm (arrange_perm blocks)
    have hw := hcuts'.writable hx hm hs₁ hs₂
    rw [ends_bind]
    refine ((layout_ends hw).and (layout_writtenOut hw.invertible hw.inner)).mono
      (fun list s₃ h3 => ?_) fun _ h => h.1
    obtain ⟨hlays, hs₃, hwritten, hseamless⟩ := h3
    refine ends_pure.mpr ⟨list, m, blocks, arrange blocks, rfl, ?_⟩
    exact
      { divided := hblocks.mono fun l hl => hl.mono hs₁ hs₃
        greedy := arrange_greedy hcuts.once
        first := head?_arrange blocks
        written := hwritten.mono (hs₁.trans hs₂)
        seamless := hseamless
        last := hlays.last
        exit_made := hm.mono (.refl s) (hs₂.trans hs₃)
        inner := by
          rw [hwritten.filter_isInner hw.inner, ← hblocks.flatMap_body]
          exact (arrange_perm blocks).flatMap_right _
        places := fun l hl => hlays.mem_placed_of_mem hcuts' hl
        once := hlays.once
        label_cases := fun l hl => hlays.label_of_mem_placed hcuts' hm hs₁ hs₂ hl }
  obtain ⟨y, s', hy, list, m, blocks, ordered, rfl, h⟩ := hends.returns
  exact ⟨list, s', m, blocks, ordered, hy, h⟩

/-- Blocks out of their order: the trace from the first one ends in the last one, and the two that are
left follow. -/
def scattered : Stmt :=
  .seq [.place (some ⟨0, 0, "a"⟩),
    .move (.temp (some ⟨0, 0, "n"⟩)) (.int 1),
    .goto (some ⟨0, 2, "c"⟩),
    .place (some ⟨0, 1, "b"⟩),
    .move (.temp (some ⟨0, 0, "n"⟩)) (.int 2),
    .goto (some ⟨0, 4, "e"⟩),
    .place (some ⟨0, 2, "c"⟩),
    .cjump .lt (.temp (some ⟨0, 0, "n"⟩)) (.int 3) (some ⟨0, 4, "e"⟩) (some ⟨0, 3, "d"⟩),
    .place (some ⟨0, 3, "d"⟩),
    .move (.temp (some ⟨0, 0, "n"⟩)) (.int 4),
    .goto (some ⟨0, 1, "b"⟩),
    .place (some ⟨0, 4, "e"⟩)]

theorem scattered_greedyLayout :
    Arrangeable { labels := 5, regs := 1 } scattered.flatten ∧
      ∃ list s' m blocks ordered,
        arrangeStmt scattered { labels := 5, regs := 1 } = .ok (.seq list) s' ∧
          GreedyLayout { labels := 5, regs := 1 } s' m scattered.flatten blocks ordered list := by
  have h : Arrangeable { labels := 5, regs := 1 } scattered.flatten := by
    refine ⟨by decide, by decide, by decide, ?_, ?_⟩
    · intro x hx e he
      simp only [scattered, Stmt.flatten, Stmt.flattenAll, Stmt.goto, cons_append,
        nil_append, mem_cons, not_mem_nil, or_false] at hx
      rcases hx with rfl | rfl | rfl | rfl | rfl | rfl | rfl | rfl | rfl | rfl | rfl | rfl <;>
        cases he <;> decide
    · intro c l r t f hmem
      simp only [scattered, Stmt.flatten, Stmt.flattenAll, Stmt.goto, cons_append,
        nil_append, mem_cons, not_mem_nil, or_false, Stmt.cjump.injEq,
        reduceCtorEq, false_or] at hmem
      rw [hmem.1]
      rfl
  exact ⟨h, arrangeStmt_greedyLayout h⟩

end Codegen.Block
