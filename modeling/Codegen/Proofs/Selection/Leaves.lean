import Codegen.Proofs.Selection.Weaving

/-!
# The numbers of leaves

Skeletons refer to the leaves of a pattern by their numbers. A match binds the leaf with a number to
what stands in the tree where the leaf stands in the pattern (`Node.leaves_bind`), so that each
reference finds what it was made for. What is left over lies below the node, and selection ends
(`Selection.leaves_numbered`).
-/

namespace Codegen

open List

/-! ### Where leaves stand -/

/-- The expressions right below a node, as far as patterns go. -/
def Node.below : Node → List Expr
  | .expr (.bin _ l r _) => [l, r]
  | .expr (.mem a) => [a]
  | .expr (.call f _ _) => [f]
  | .stmt s => s.exprs
  | _ => []

/-- The expression at the end of a path down from a node. -/
def Node.at? : Node → List Nat → Option Expr
  | .expr e, [] => some e
  | .stmt _, [] => none
  | x, i :: path => x.below[i]?.bind fun e => Node.at? (.expr e) path

/-- What a leaf is bound to where the given expression stands. -/
def LeafKind.leaf? : LeafKind → Expr → Option Leaf
  | .int, .int v => some (.int v)
  | .addr, .addr l => some (.addr l)
  | .temp, .temp r => some (.temp r)
  | .temp, e => some (.glue e)
  | _, _ => none

/-- What a leaf with the given path and kind is bound to. -/
def Node.leafAt? (x : Node) (spot : List Nat × LeafKind) : Option Leaf :=
  (x.at? spot.1).bind spot.2.leaf?

/-- The same places, seen from one step above. -/
def stepDown (i : Nat) (spots : List (List Nat × LeafKind)) : List (List Nat × LeafKind) :=
  spots.map fun spot => (i :: spot.1, spot.2)

/-- The paths to the leaves of a pattern, from left to right, with their kinds. -/
def Expr.leafSpots : Expr → List (List Nat × LeafKind)
  | .int _ => [([], .int)]
  | .addr _ => [([], .addr)]
  | .temp _ => [([], .temp)]
  | .bin _ l r _ => stepDown 0 l.leafSpots ++ stepDown 1 r.leafSpots
  | .mem a => stepDown 0 a.leafSpots
  | .call f _ _ => stepDown 0 f.leafSpots
  | .missing | .eseq .. => []

/-- The paths to the leaves of a pattern. -/
def Node.leafSpots : Node → List (List Nat × LeafKind)
  | .expr e => e.leafSpots
  | .stmt (.move d s) => stepDown 0 d.leafSpots ++ stepDown 1 s.leafSpots
  | .stmt (.jump d _) => stepDown 0 d.leafSpots
  | .stmt (.cjump _ l r _ _) => stepDown 0 l.leafSpots ++ stepDown 1 r.leafSpots
  | .stmt _ => []

theorem map_snd_stepDown (i : Nat) (spots : List (List Nat × LeafKind)) :
    (stepDown i spots).map Prod.snd = spots.map Prod.snd := map_map

theorem Expr.kinds_leafSpots (p : Expr) : p.leafSpots.map Prod.snd = p.leafKinds := by
  fun_induction leafSpots p with
  | case1 | case2 | case3 | case7 | case8 => rfl
  | case4 _ _ _ _ ihl ihr => rw [map_append, map_snd_stepDown, map_snd_stepDown, ihl, ihr, leafKinds]
  | case5 _ ih | case6 _ _ _ ih => rw [map_snd_stepDown, ih, leafKinds]

/-- The leaves are numbered in the order in which they are listed for skeletons. -/
theorem Node.kinds_leafSpots (p : Node) : p.leafSpots.map Prod.snd = p.leafKinds := by
  rcases p with e | s
  · exact e.kinds_leafSpots
  · cases s with
    | move | cjump =>
      rw [leafSpots, map_append, map_snd_stepDown, map_snd_stepDown, Expr.kinds_leafSpots,
        Expr.kinds_leafSpots]
      rfl
    | jump d => exact (map_snd_stepDown 0 _).trans d.kinds_leafSpots
    | missing | eval | seq | place => rfl

variable {fits : Int64 → Bool} {b : Binding} {i : Nat} {y : Expr}

theorem Node.map_leafAt?_stepDown {x : Node} (hy : x.below[i]? = some y)
    (spots : List (List Nat × LeafKind)) :
    (stepDown i spots).map x.leafAt? = spots.map (Node.expr y).leafAt? := by
  simp [stepDown, leafAt?, Node.at?, hy]

theorem Expr.Binds.leaves_eq {p x : Expr} (h : p.Binds fits x b) :
    p.leafSpots.map (Node.expr x).leafAt? = b.leaves.map some := by
  induction h with
  | reg | int | addr => rfl
  | @rest q x hx =>
    cases x with
    | temp r => exact absurd rfl (hx r)
    | _ => rfl
  | bin _ _ ihl ihr =>
    rw [leafSpots, map_append, Node.map_leafAt?_stepDown rfl, Node.map_leafAt?_stepDown rfl, ihl, ihr,
      ← map_append]
    rfl
  | mem _ ih | call _ ih => rw [leafSpots, Node.map_leafAt?_stepDown rfl, ih, Binding.leaves_above]

/-- A match binds each leaf to what stands where the leaf stands in the pattern. -/
theorem Node.leaves_bind {p x : Node} (h : p.bind fits x = some b) :
    p.leafSpots.map x.leafAt? = b.leaves.map some := by
  rcases p with p | p <;> rcases x with x | x
  · exact (Expr.binds_of_bind h).leaves_eq
  · cases h
  · cases h
  · cases Stmt.binds_of_bind h with
    | moveReg q r hc =>
      rw [leafSpots, map_append, map_leafAt?_stepDown rfl, map_leafAt?_stepDown rfl, hc.leaves_eq]
      rfl
    | move _ ha hc | cjump ha hc =>
      rw [leafSpots, map_append, map_leafAt?_stepDown rfl, map_leafAt?_stepDown rfl, ha.leaves_eq,
        hc.leaves_eq, ← map_append]
      rfl
    | jump hc => exact (map_leafAt?_stepDown rfl _).trans hc.leaves_eq
    | place => rfl

/-- What a leaf is bound to stands somewhere in the tree. -/
theorem Node.exists_at?_of_bind {p x : Node} (h : p.bind fits x = some b) {l : Leaf}
    (hl : l ∈ b.leaves) : ∃ path, x.at? path = some l.expr := by
  have hmem : some l ∈ p.leafSpots.map x.leafAt? := leaves_bind h ▸ mem_map_of_mem hl
  obtain ⟨⟨path, kind⟩, -, hspot⟩ := mem_map.mp hmem
  obtain ⟨e, he, hleaf⟩ := Option.bind_eq_some_iff.mp hspot
  refine ⟨path, he.trans (congrArg some ?_)⟩
  unfold LeafKind.leaf? at hleaf
  split at hleaf <;> cases hleaf <;> rfl

/-! ### What skeletons refer to -/

/-- A reference to a leaf is made for a leaf of the pattern, and one that writes for a register. -/
theorem Template.leafKinds_of_make {reg? : String → Option Reg} {p : Node} {skeletons : List Skeleton}
    {wide : Bool} {t : Template} (h : Template.make reg? p skeletons wide = .ok t) {r : Recipe}
    (hr : r ∈ t.recipes) {n : Nat} {access : Access} (hn : .leaf n access ∈ r.parts) :
    n < p.leafKinds.length ∧ (access.writes = true → p.leafKinds[n]? = some .temp) := by
  obtain ⟨-, recipes, hrecipes, rfl⟩ := make_eq_ok_iff.mp h
  obtain ⟨s, -, hs⟩ := exists_mem_of_forall₂ hrecipes hr
  obtain ⟨parts, uses, defs, hparts, -, -, rfl⟩ := Recipe.ofSkeleton_eq_ok_iff.mp hs
  obtain ⟨q, -, hq⟩ := exists_mem_of_forall₂ (mapM_eq_ok_iff.mp hparts) hn
  cases q with
  | slot offset body =>
    cases Part.ofPiece_slot.mp hq with
    | readLeaf _ _ hlt => exact ⟨hlt, nofun⟩
    | writeLeaf _ htemp | updateLeaf _ htemp =>
      exact ⟨(List.getElem?_eq_some_iff.mp htemp).1, fun _ => htemp⟩
  | text | strayClose | unclosed => cases hq

namespace Selection

open Pass

variable {k : Kit} {x : Node} {leaves : List Leaf} {kinds : List LeafKind}

/-- After what is left over is computed each leaf is a constant, a label or a register. -/
theorem selectLeaves_settled {ls : List Leaf} (h : List.Forall₂ Leaf.Suits kinds ls)
    (hregs : ∀ u, .temp u ∈ ls → u.isSome = true) (st : State) :
    Ends (selectLeaves k ls) st (fun ls' _ => List.Forall₂ (Leaf.Settled fun _ => True) kinds ls')
      fun _ => True := by
  induction h generalizing st with
  | nil =>
    rw [selectLeaves]
    exact ends_pure.mpr .nil
  | @cons kind l kinds ls hl _ ih =>
    have hrest := ih fun u hu => hregs u (mem_cons_of_mem _ hu)
    cases l with
    | glue e =>
      rw [selectLeaves]
      refine Ends.bind (ends_of_forall fun _ _ _ => trivial) fun r st' _ => ?_
      refine Ends.bind (ends_of_forall fun _ _ _ => trivial) fun _ st' _ => ?_
      refine (hrest st').bind fun ls' st' hls' => ends_pure.mpr (.cons ?_ hls')
      cases kind with
      | temp => exact trivial
      | int | addr => cases hl
    | temp r | int v | addr a =>
      rw [selectLeaves]
      · refine (hrest st).bind fun ls' st' hls' => ends_pure.mpr (.cons ?_ hls')
        exact Leaf.settled_of_suits hl (by simp) fun u hu =>
          ⟨hregs u (by simp_all [Leaf.expr, Semantics.regsOf]), trivial⟩
      · simp

theorem leafValue_of_part {d : Draft} {dst : Option Reg} {p : Part} {n : Nat} {e : Expr}
    (h : d.part x leaves dst p = .error (.leafValue n e)) : ∃ m access, p = .leaf m access := by
  cases p with
  | leaf m access => exact ⟨m, access, rfl⟩
  | text | out | fixed => cases h
  | onTrue | onFalse | label =>
    simp only [Draft.part] at h
    split at h <;> cases h

/-- A leaf is refused only where a recipe refers to one that can not be filled in. -/
theorem leafValue_of_instance? {dst : Option Reg} {used : List (Option Reg)} {r : Recipe} {n : Nat}
    {e : Expr} (h : instance? x leaves dst used r = .error (.leafValue n e)) :
    ∃ m access, .leaf m access ∈ r.parts ∧ holeTokens? x leaves dst (.leaf m access) = none := by
  unfold instance? at h
  obtain hparts | ⟨d, -, h⟩ := bind_eq_error_iff.mp h
  · obtain ⟨p, hp, d, hd⟩ := exists_error_of_foldlM hparts
    obtain ⟨m, access, rfl⟩ := leafValue_of_part hd
    refine ⟨m, access, hp, Option.eq_none_iff_forall_ne_some.mpr fun ts hts => ?_⟩
    obtain ⟨d', hd'⟩ := d.exists_part hts
    rw [hd'] at hd
    cases hd
  · dsimp only at h
    split at h
    · obtain hdests | ⟨dests, -, ⟨⟩⟩ := bind_eq_error_iff.mp h
      unfold branchDests at hdests
      split at hdests <;> cases hdests
    · cases h

end Selection

/-! ### Termination -/

theorem Leaf.size_le_glueSize {e : Expr} {ls : List Leaf} (he : .glue e ∈ ls) :
    e.size ≤ Leaf.glueSize ls := by
  obtain ⟨before, after, rfl⟩ := append_of_mem he
  rw [Leaf.glueSize_append, Leaf.glueSize]
  omega

theorem Expr.size_le_sizes {e : Expr} {args : List Expr} (he : e ∈ args) :
    e.size ≤ Expr.sizes args := by
  induction args with
  | nil => cases he
  | cons a rest ih =>
    rw [Expr.sizes]
    obtain rfl | he := mem_cons.mp he
    · omega
    · have := ih he
      omega

/-- The expressions that selection goes on with from an expression: those that its template leaves
over, and the arguments and the link of a call. -/
inductive Catalog.LeadsTo (c : Catalog) : Expr → Expr → Prop
  | glue {x e : Expr} {t : Template} {b : Binding} (hfind : c.find? (.expr x) = some (t, b))
      (he : .glue e ∈ b.leaves) : LeadsTo c x e
  | arg {f link e : Expr} {args : List Expr} (he : e ∈ args) : LeadsTo c (.call f args link) e
  | link (f link : Expr) (args : List Expr) : LeadsTo c (.call f args link) link

theorem Catalog.LeadsTo.size_lt {c : Catalog} {x e : Expr} (h : c.LeadsTo x e) : e.size < x.size := by
  cases h with
  | glue hfind he => exact (Leaf.size_le_glueSize he).trans_lt (glueSize_find?_lt hfind)
  | arg he =>
    have := Expr.size_le_sizes he
    rw [Expr.size]
    omega
  | link =>
    rw [Expr.size]
    omega

/-- What the template that is found for a node leaves over lies below the node. -/
theorem Catalog.exists_at?_of_find? {c : Catalog} {x : Node} {t : Template} {b : Binding} {e : Expr}
    (h : c.find? x = some (t, b)) (he : .glue e ∈ b.leaves) :
    ∃ i path, x.at? (i :: path) = some e := by
  obtain ⟨-, -, hb⟩ := of_find? h
  obtain ⟨path, hpath⟩ := Node.exists_at?_of_bind hb he
  cases path with
  | cons i path => exact ⟨i, path, hpath⟩
  | nil =>
    cases x with
    | stmt s => cases hpath
    | expr x =>
      cases hpath
      exact absurd (LeadsTo.glue h he).size_lt (Nat.lt_irrefl _)

namespace Selection

/-- The leaves of a pattern have the same numbers where a template is made and where it is matched. A
match binds each of them to what stands in its place, a register of the pattern also to an expression
that is left over; references are to leaves that there are, and none is refused if the registers of
the tree are there. What is left over lies below the node, so that selection ends for all catalogs and
trees. -/
theorem leaves_numbered (k : Kit) (x : Node) :
    (∀ {p : Node} {fits : Int64 → Bool} {b : Binding}, p.bind fits x = some b →
      p.leafSpots.map Prod.snd = p.leafKinds ∧ p.leafSpots.map x.leafAt? = b.leaves.map some) ∧
    (∀ {reg? : String → Option Reg} {p : Node} {skeletons : List Skeleton} {wide : Bool} {t : Template}
      {fits : Int64 → Bool} {b : Binding}, Template.make reg? p skeletons wide = .ok t →
      p.bind fits x = some b → ∀ r ∈ t.recipes,
        (∀ n access, .leaf n access ∈ r.parts → n < b.leaves.length) ∧
        ((∀ path u, x.at? path = some (.temp u) → u.isSome = true) →
          ∀ st leaves st', selectLeaves k b.leaves st = .ok leaves st' →
            (∀ n access, .leaf n access ∈ r.parts → access.writes = true →
              ∃ u, leaves[n]? = some (.temp (some u))) ∧
            ∀ dst used n e, instance? x leaves dst used r ≠ .error (.leafValue n e))) ∧
    (∀ {t : Template} {b : Binding}, k.catalog.find? x = some (t, b) →
      ∀ e, .glue e ∈ b.leaves → ∃ i path, x.at? (i :: path) = some e) ∧
    WellFounded fun e y => k.catalog.LeadsTo y e := by
  refine ⟨fun hb => ⟨Node.kinds_leafSpots _, Node.leaves_bind hb⟩, ?_,
    fun hfind e he => Catalog.exists_at?_of_find? hfind he, ?_⟩
  · intro reg? p skeletons wide t fits b ht hb r hr
    have hsuits := Node.suits_bind hb
    refine ⟨fun n access hn => hsuits.length_eq ▸ (Template.leafKinds_of_make ht hr hn).1, ?_⟩
    intro hregs st leaves st' hleaves
    have hsettled := (selectLeaves_settled (k := k) hsuits (fun u hu => by
      obtain ⟨path, hpath⟩ := Node.exists_at?_of_bind hb hu
      exact hregs path u hpath) st).of_ok hleaves
    refine ⟨fun n access hn hwrites => ?_, fun dst used n e hrefused => ?_⟩
    · have htemp := (Template.leafKinds_of_make ht hr hn).2 hwrites
      obtain ⟨hlt, hkind⟩ := List.getElem?_eq_some_iff.mp htemp
      have hlt' : n < leaves.length := hsettled.length_eq ▸ hlt
      have hleaf := (forall₂_iff_get.mp hsettled).2 n hlt hlt'
      rw [get_eq_getElem, hkind, get_eq_getElem, Leaf.settled_temp] at hleaf
      obtain ⟨u, hu, -⟩ := hleaf
      exact ⟨u, by rw [getElem?_eq_getElem hlt', hu]⟩
    · obtain ⟨m, access, hm, hnone⟩ := leafValue_of_instance? hrefused
      obtain ⟨ts, hts⟩ := exists_holeTokens_leaf x dst access hsettled
        (Template.leafKinds_of_make ht hr hm).1
      rw [hnone] at hts
      cases hts
  · exact Subrelation.wf (fun h => h.size_lt) (measure Expr.size).wf

/-- A register set to what is stored at the given address. -/
def fetch (address : Expr) : Node := .stmt (.move (.temp (some ⟨0, 0, "a"⟩)) (.mem address))

theorem make_fetch : ∃ t, Template.make (fun _ => none) (fetch (.temp none))
    [{ text := "load \x7b=0\x7d, (\x7b1\x7d)" }] false = .ok t ∧
      ∃ r ∈ t.recipes, .leaf 0 .write ∈ r.parts := ⟨_, rfl, _, mem_cons_self, by decide⟩

/-- The first leaf is written; the second is bound to a computed address, which is left over. -/
theorem fetch_numbered : ∃ t b, Template.make (fun _ => none) (fetch (.temp none))
      [{ text := "load \x7b=0\x7d, (\x7b1\x7d)" }] false = .ok t ∧
    (fetch (.temp none)).bind (fun _ => true) (fetch (.mem (.int 8))) = some b ∧
    [some (.temp (some ⟨0, 0, "a"⟩)), some (.glue (.mem (.int 8)))] = b.leaves.map some ∧
    (∃ r ∈ t.recipes, .leaf 0 .write ∈ r.parts) ∧
    ∀ r ∈ t.recipes, ∀ n access, .leaf n access ∈ r.parts → n < b.leaves.length := by
  obtain ⟨hleaves, hparts, -⟩ :=
    leaves_numbered ⟨{ name := "", machine := [] }, none⟩ (fetch (.mem (.int 8)))
  have hbind : (fetch (.temp none)).bind (fun _ => true) (fetch (.mem (.int 8))) = some _ := rfl
  obtain ⟨t, ht, hwritten⟩ := make_fetch
  exact ⟨t, _, ht, hbind, (hleaves hbind).2, hwritten, fun r hr => (hparts ht hbind r hr).1⟩

end Selection

end Codegen
