import Codegen.Proofs.Assembly.Basic
import Codegen.Proofs.Pass
import Codegen.Proofs.Selection.Skeleton
import Mathlib.Algebra.Order.Sub.Basic
import Mathlib.Data.Nat.SuccPred

/-!
# Filling in skeletons

A recipe filled in for some leaves gives an instruction whose text spells the characters of the
recipe, with the leaves in its holes (`instance?_spells`). So the instructions of a template are
read as what its skeletons say (`fill_reads`).
-/

namespace Codegen

open List

variable {ts : List Token}

/-! ### Decimal numbers -/

namespace Assembly

theorem writes_toString (n : Nat) : Writes (toString n).toList n := by
  rw [Nat.toString_eq_ofList_toDigits, String.toList_ofList]
  exact ⟨Nat.toDigits_ne_nil, fun c hc => Nat.isDigit_of_mem_toDigits (by decide) (by decide) hc,
    Nat.ofDigitChars_ten_toDigits⟩

theorem Writes.readNat? {ds : List Char} {n : Nat} (h : Writes ds n) (hn : n < 2 ^ 63) :
    Text.readNat? ds = some n := by
  obtain ⟨h1, h2, h3⟩ := h
  have hall : ds.all Char.isDigit = true := all_eq_true.mpr h2
  rw [Text.readNat?, isEmpty_eq_false_iff.mpr h1, hall, h3]
  rw [if_neg (by decide), if_pos (by omega)]

theorem readInt?_wordText (v : Int64) : Text.readInt? (wordText v).toList = some v.toInt := by
  have hlo := v.le_toInt
  have hhi := v.toInt_lt
  rw [wordText, Int.toString_eq_repr, Int.repr_eq_if]
  split
  · rename_i h0
    have hw := writes_toString v.toInt.toNat
    have hread := hw.readNat? (by omega)
    obtain ⟨hne, hdig, -⟩ := hw
    rw [Nat.toString_eq_repr] at hread hne hdig
    have hcast : some v.toInt = (Text.readNat? v.toInt.toNat.repr.toList).map Int.ofNat := by
      rw [hread, Option.map_some, Int.ofNat_eq_natCast, Int.toNat_of_nonneg h0]
    rw [hcast]
    generalize v.toInt.toNat.repr.toList = ds at hdig
    -- a sign is no digit
    unfold Text.readInt?
    split
    · exact absurd (hdig '-' mem_cons_self) (by decide)
    · exact absurd (hdig '+' mem_cons_self) (by decide)
    · rfl
  · have hw := writes_toString (-v.toInt).toNat
    obtain ⟨h1, h2, h3⟩ := hw
    rw [Nat.toString_eq_repr] at h1 h2 h3
    have hall := all_eq_true.mpr h2
    rw [String.toList_append]
    show Text.readInt? ('-' :: (-v.toInt).toNat.repr.toList) = _
    rw [Text.readInt?, isEmpty_eq_false_iff.mpr h1, hall, h3]
    rw [if_neg (by decide), if_pos (by omega)]
    congr 1
    omega

theorem spells_int (i : Instr) (v : Int64) : Spells i [.int v] (wordText v).toList := by
  have h := Spells.int (readInt?_wordText v) (.nil (x := i))
  rwa [append_nil] at h

end Assembly

namespace Selection

/-! ### Slots -/

theorem slotIn_spec (list : List (Option Reg)) (r : Option Reg) :
    list <+: (slotIn list r).1 ∧ (slotIn list r).1[(slotIn list r).2]? = some r := by
  unfold slotIn
  split
  · rename_i i hi
    obtain ⟨h, hr, -⟩ := idxOf?_eq_some_iff.mp hi
    exact ⟨prefix_rfl, by rw [getElem?_eq_getElem h]; exact congrArg some hr⟩
  · exact ⟨prefix_append _ _, by simp⟩

theorem withRegs_extends (list rs : List (Option Reg)) : list <+: withRegs list rs := by
  unfold withRegs
  induction rs generalizing list with
  | nil => exact prefix_rfl
  | cons r rs ih => exact (slotIn_spec list r).1.trans (ih _)

/-- What is found at a place of a list is there in every longer list. -/
theorem getElem?_extended {list list' : List (Option Reg)} (h : list <+: list') {i : Nat}
    {r : Option Reg} (hi : list[i]? = some r) : list'[i]? = some r := by
  obtain ⟨t, rfl⟩ := h
  rw [getElem?_append_left (List.getElem?_eq_some_iff.mp hi).1, hi]

theorem length_slotIn_le (list : List (Option Reg)) (r : Option Reg) :
    (slotIn list r).1.length ≤ list.length + 1 := by
  unfold slotIn
  split <;> simp

theorem mem_slotIn {list : List (Option Reg)} {r u : Option Reg} :
    u ∈ (slotIn list r).1 ↔ u ∈ list ∨ u = r := by
  unfold slotIn
  split
  · rename_i i hi
    refine ⟨.inl, fun h => h.elim id ?_⟩
    rintro rfl
    obtain ⟨h, hr, -⟩ := idxOf?_eq_some_iff.mp hi
    exact hr ▸ getElem_mem h
  · simp

theorem mem_withRegs_iff {list rs : List (Option Reg)} {u : Option Reg} :
    u ∈ withRegs list rs ↔ u ∈ list ∨ u ∈ rs := by
  unfold withRegs
  induction rs generalizing list with
  | nil => simp
  | cons r rs ih => rw [foldl_cons, ih, mem_slotIn, mem_cons, or_assoc]

end Selection

/-- The recipes that are filled in with or without a register for the value. -/
def Recipe.isKept (dst : Option Reg) (r : Recipe) : Bool := !(r.makesValue && dst.isNone)

/-! ### Texts with slots -/

open Assembly

/-- Text that is written for tokens: registers are slots of the given lists. -/
inductive Written (reads writes : List (Option Reg)) : List Token → List Char → Prop
  | nil : Written reads writes [] []
  | chr {ts : List Token} {cs : List Char} (c : Char) (h : Written reads writes ts cs) :
      Written reads writes (.chr c :: ts) (c :: cs)
  | read {ts : List Token} {cs : List Char} {n : Nat} {r : Reg} (hn : reads[n]? = some (some r))
      (h : Written reads writes ts cs) :
      Written reads writes (.reg (some r) :: ts) ('&' :: 'i' :: ((toString n).toList ++ cs))
  | write {ts : List Token} {cs : List Char} {n : Nat} {r : Reg} (hn : writes[n]? = some (some r))
      (h : Written reads writes ts cs) :
      Written reads writes (.reg (some r) :: ts) ('&' :: 'o' :: ((toString n).toList ++ cs))
  | int {ts : List Token} {cs : List Char} (v : Int64) (h : Written reads writes ts cs) :
      Written reads writes (.int v :: ts) ((wordText v).toList ++ cs)
  | lab {ts : List Token} {cs : List Char} (l : Option Label) (h : Written reads writes ts cs) :
      Written reads writes (.lab l :: ts) ((Label.render l).toList ++ cs)

namespace Written

open Selection

variable {reads writes reads' writes' : List (Option Reg)} {ts ts' : List Token} {cs cs' : List Char}

theorem chars (cs : List Char) : Written reads writes (cs.map .chr) cs := by
  induction cs with
  | nil => exact .nil
  | cons c cs ih => exact .chr c ih

theorem word (v : Int64) : Written reads writes [.int v] (wordText v).toList := by
  simpa using Written.int v (.nil : Written reads writes [] [])

theorem label (l : Option Label) : Written reads writes [.lab l] (Label.render l).toList := by
  simpa using Written.lab l (.nil : Written reads writes [] [])

theorem append (h : Written reads writes ts cs) (h' : Written reads writes ts' cs') :
    Written reads writes (ts ++ ts') (cs ++ cs') := by
  induction h with
  | nil => exact h'
  | chr c _ ih => exact .chr c ih
  | read hn _ ih => simpa using Written.read hn ih
  | write hn _ ih => simpa using Written.write hn ih
  | int v _ ih => simpa using Written.int v ih
  | lab l _ ih => simpa using Written.lab l ih

theorem mono (h : Written reads writes ts cs) (hr : reads <+: reads') (hw : writes <+: writes') :
    Written reads' writes' ts cs := by
  induction h with
  | nil => exact .nil
  | chr c _ ih => exact .chr c ih
  | read hn _ ih => exact .read (getElem?_extended hr hn) ih
  | write hn _ ih => exact .write (getElem?_extended hw hn) ih
  | int v _ ih => exact .int v ih
  | lab l _ ih => exact .lab l ih

/-- What is written for tokens spells them. -/
theorem spells {i : Instr} (h : Written i.reads i.writes ts cs) : Spells i ts cs := by
  induction h with
  | nil => exact .nil
  | chr c _ ih => exact .chr ih
  | read hn _ ih => exact .read (writes_toString _) hn ih
  | write hn _ ih => exact .write (writes_toString _) hn ih
  | int v _ ih => exact .int (readInt?_wordText v) ih
  | lab l _ ih => exact .lab ih

end Written

namespace Selection

variable {x : Node} {leaves : List Leaf} {dst : Option Reg} {used : List (Option Reg)}

/-! ### Drafts -/

/-- What a hole is filled with. -/
def holeTokens? (x : Node) (leaves : List Leaf) (dst : Option Reg) : Part → Option (List Token)
  | .text s => some (s.toList.map .chr)
  | .leaf n _ =>
    match leaves[n]? with
    | some (.temp (some r)) => some [.reg (some r)]
    | some (.int v) => some [.int v]
    | some (.addr l) => some [.lab l]
    | _ => none
  | .out _ => dst.map fun r => [.reg (some r)]
  | .fixed r _ => some [.reg (some r)]
  | .onTrue =>
    match x with
    | .stmt (.cjump _ _ _ t _) => some [.lab t]
    | _ => none
  | .onFalse =>
    match x with
    | .stmt (.cjump _ _ _ _ f) => some [.lab f]
    | _ => none
  | .label =>
    match x with
    | .stmt (.place l) => some [.lab l]
    | _ => none

/-- The characters and holes of a skeleton with the holes filled. -/
def tokens? (x : Node) (leaves : List Leaf) (dst : Option Reg) :
    List Part.Symbol → Option (List Token)
  | [] => some []
  | .chr c :: ss => (tokens? x leaves dst ss).map (.chr c :: ·)
  | .hole p :: ss =>
    match holeTokens? x leaves dst p, tokens? x leaves dst ss with
    | some ts, some rest => some (ts ++ rest)
    | _, _ => none

/-- The register that a part refers to, and how. -/
def referred (leaves : List Leaf) (dst : Option Reg) : Part → Option (Option Reg × Access)
  | .leaf n access =>
    match leaves[n]? with
    | some (.temp r) => some (r, access)
    | _ => none
  | .out access => some (dst, access)
  | .fixed r access => some (some r, access)
  | _ => none

namespace Draft

variable {d d' d'' : Draft} {p : Part} {parts : List Part} {n n' : Nat} {ts ts' : List Token}

/-- What a part does to a draft: it says something or refers to a register. -/
inductive Takes (x : Node) (leaves : List Leaf) (dst : Option Reg) (d : Draft) : Part → Draft → Prop
  | say {p : Part} {s : String} {ts : List Token} (hts : holeTokens? x leaves dst p = some ts)
      (hs : Written d.reads d.writes ts s.toList) (hreg : referred leaves dst p = none)
      (hp : p ≠ .label) : Takes x leaves dst d p (d.say s)
  | place {l : Option Label} (hx : x = .stmt (.place l)) :
      Takes x leaves dst d .label { d.say (Label.render l) with label := l }
  | refer {p : Part} {r : Reg} {access : Access} (hts : holeTokens? x leaves dst p = some [.reg (some r)])
      (hreg : referred leaves dst p = some (some r, access)) (hp : p ≠ .label) :
      Takes x leaves dst d p (d.refer (some r) access)
  | lose {access : Access} (hdst : dst = none) : Takes x leaves dst d (.out access) (d.refer none access)

theorem takes_of_part (h : d.part x leaves dst p = .ok d') : d.Takes x leaves dst p d' := by
  cases p with
  | text s =>
    cases h
    exact .say rfl (.chars _) rfl (by simp)
  | out access =>
    cases h
    cases dst with
    | none => exact .lose rfl
    | some r => exact .refer rfl rfl (by simp)
  | fixed r access =>
    cases h
    exact .refer rfl rfl (by simp)
  | leaf n access =>
    rw [part, getD_eq_getElem?_getD] at h
    cases hn : leaves[n]? with
    | none =>
      rw [hn] at h
      cases h
    | some l =>
      rw [hn] at h
      cases l with
      | temp r =>
        cases r with
        | none => cases h
        | some r =>
          cases h
          exact .refer (by rw [holeTokens?, hn]) (by rw [referred, hn]) (by simp)
      | int v =>
        cases h
        exact .say (by rw [holeTokens?, hn]) (.word v) (by rw [referred, hn]) (by simp)
      | addr l =>
        cases h
        exact .say (by rw [holeTokens?, hn]) (.label l) (by rw [referred, hn]) (by simp)
      | glue e => cases h
  | onTrue | onFalse =>
    simp only [part] at h
    split at h
    · cases h
      exact .say rfl (.label _) rfl (by simp)
    · cases h
  | label =>
    simp only [part] at h
    split at h
    · cases h
      exact .place rfl
    · cases h

/-- A part can be appended if it can be filled. -/
theorem exists_part (d : Draft) (h : holeTokens? x leaves dst p = some ts) :
    ∃ d', d.part x leaves dst p = .ok d' := by
  cases p with
  | text | out | fixed => exact ⟨_, rfl⟩
  | leaf n access =>
    rw [holeTokens?] at h
    rw [part, getD_eq_getElem?_getD]
    split at h
    · exact ⟨_, by rw [‹leaves[n]? = _›]; rfl⟩
    · exact ⟨_, by rw [‹leaves[n]? = _›]; rfl⟩
    · exact ⟨_, by rw [‹leaves[n]? = _›]; rfl⟩
    · cases h
  | onTrue | onFalse | label =>
    simp only [holeTokens?] at h
    split at h
    · exact ⟨_, rfl⟩
    · cases h

/-- What holds of parts that are appended one after the other. -/
theorem of_foldlM {R : List Part → Draft → Draft → Prop} (nil : ∀ d, R [] d d)
    (cons : ∀ {p parts d d₁ d'}, d.Takes x leaves dst p d₁ → R parts d₁ d' → R (p :: parts) d d')
    (h : parts.foldlM (Draft.part x leaves dst) d = .ok d') : R parts d d' := by
  induction parts generalizing d with
  | nil =>
    cases h
    exact nil _
  | cons p parts ih =>
    rw [foldlM_cons] at h
    cases hp : d.part x leaves dst p with
    | error e =>
      rw [hp] at h
      cases h
    | ok d₁ =>
      rw [hp] at h
      exact cons (takes_of_part hp) (ih h)

/-- Parts can be appended if each of them can be filled. -/
theorem exists_foldlM (d : Draft) (h : ∀ p ∈ parts, ∃ ts, holeTokens? x leaves dst p = some ts) :
    ∃ d', parts.foldlM (Draft.part x leaves dst) d = .ok d' := by
  induction parts generalizing d with
  | nil => exact ⟨d, rfl⟩
  | cons p parts ih =>
    rw [forall_mem_cons] at h
    obtain ⟨⟨ts, hts⟩, h⟩ := h
    obtain ⟨d₁, h1⟩ := d.exists_part hts
    obtain ⟨d', h2⟩ := ih d₁ h
    exact ⟨d', by rw [foldlM_cons, h1]; exact h2⟩

/-- A draft goes on with text that is written for the given tokens, and gets up to `n` more registers
to read and to write. -/
structure Puts (d : Draft) (n : Nat) (ts : List Token) (d' : Draft) : Prop where
  reads : d.reads <+: d'.reads
  writes : d.writes <+: d'.writes
  room : d'.reads.length ≤ d.reads.length + n ∧ d'.writes.length ≤ d.writes.length + n
  text : ∃ cs, d'.text.toList = d.text.toList ++ cs ∧ Written d'.reads d'.writes ts cs

theorem Puts.trans (h : d.Puts n ts d') (h' : d'.Puts n' ts' d'') :
    d.Puts (n + n') (ts ++ ts') d'' := by
  obtain ⟨cs, h1, h2⟩ := h.text
  obtain ⟨cs', h3, h4⟩ := h'.text
  have hroom := h.room
  have hroom' := h'.room
  exact ⟨h.reads.trans h'.reads, h.writes.trans h'.writes, by omega, cs ++ cs',
    by rw [h3, h1, append_assoc], (h2.mono h'.reads h'.writes).append h4⟩

theorem puts_say (d : Draft) {s : String} (h : Written d.reads d.writes ts s.toList) :
    d.Puts 1 ts (d.say s) :=
  ⟨prefix_rfl, prefix_rfl, by simp [say], s.toList, String.toList_append, h⟩

theorem puts_refer (d : Draft) (r : Reg) (access : Access) :
    d.Puts 1 [.reg (some r)] (d.refer (some r) access) := by
  have hread := slotIn_spec d.reads (some r)
  have hwrite := slotIn_spec d.writes (some r)
  have hreads := length_slotIn_le d.reads (some r)
  have hwrites := length_slotIn_le d.writes (some r)
  have htext (letter : Char) (s : String) (hs : s.toList = ['&', letter]) (i : Nat) :
      (d.text ++ s ++ toString i).toList =
        d.text.toList ++ '&' :: letter :: ((toString i).toList ++ []) := by
    rw [String.toList_append, String.toList_append, hs]
    simp
  cases access with
  | read =>
    exact ⟨hread.1, prefix_rfl, ⟨hreads, by simp [refer]⟩, _, htext 'i' "&i" rfl _,
      .read hread.2 .nil⟩
  | write =>
    exact ⟨prefix_rfl, hwrite.1, ⟨by simp [refer], hwrites⟩, _, htext 'o' "&o" rfl _,
      .write hwrite.2 .nil⟩
  | update =>
    exact ⟨hread.1, hwrite.1, ⟨hreads, hwrites⟩, _, htext 'o' "&o" rfl _, .write hwrite.2 .nil⟩

/-- A part is written as what stands in its place. -/
theorem Takes.puts (h : d.Takes x leaves dst p d')
    (hout : ∀ access, p = .out access → dst.isSome = true) :
    ∃ ts, holeTokens? x leaves dst p = some ts ∧ d.Puts 1 ts d' := by
  cases h with
  | say hts hs => exact ⟨_, hts, d.puts_say hs⟩
  | @place l hx =>
    have hsay := d.puts_say (.label l)
    exact ⟨_, by rw [hx]; rfl, hsay.reads, hsay.writes, hsay.room, hsay.text⟩
  | refer hts => exact ⟨_, hts, d.puts_refer _ _⟩
  | lose hdst => exact absurd (hout _ rfl) (by simp [hdst])

theorem text_refer (d : Draft) (r : Option Reg) (access : Access) :
    d.text.toList <+: (d.refer r access).text.toList := by
  cases access <;> simp [refer, append_assoc]

theorem text_say (d : Draft) (s : String) : d.text.toList <+: (d.say s).text.toList :=
  ⟨s.toList, String.toList_append.symm⟩

theorem text_foldlM (h : parts.foldlM (Draft.part x leaves dst) d = .ok d') :
    d.text.toList <+: d'.text.toList := by
  refine of_foldlM (R := fun _ d d' => d.text.toList <+: d'.text.toList) (fun d => prefix_rfl) ?_ h
  intro p parts d d₁ d' hp hrest
  cases hp with
  | say | place => exact (d.text_say _).trans hrest
  | refer | lose => exact (d.text_refer _ _).trans hrest

end Draft

theorem tokens?_append {ss ss' : List Part.Symbol}
    (h : tokens? x leaves dst (ss ++ ss') = some ts) : ∃ us vs,
      tokens? x leaves dst ss = some us ∧ tokens? x leaves dst ss' = some vs ∧ ts = us ++ vs := by
  induction ss generalizing ts with
  | nil => exact ⟨[], ts, rfl, h, rfl⟩
  | cons s ss ih =>
    cases s with
    | chr c =>
      obtain ⟨ts', h', rfl⟩ := Option.map_eq_some_iff.mp h
      obtain ⟨us, vs, h1, h2, rfl⟩ := ih h'
      exact ⟨.chr c :: us, vs, by rw [tokens?, h1]; rfl, h2, rfl⟩
    | hole p =>
      rw [cons_append, tokens?] at h
      split at h
      · rename_i us rest hp hrest
        obtain ⟨us', vs, h1, h2, rfl⟩ := ih hrest
        cases h
        exact ⟨us ++ us', vs, by rw [tokens?, hp, h1], h2, (append_assoc ..).symm⟩
      · cases h

theorem tokens?_chars_append (cs : List Char) (ss : List Part.Symbol) :
    tokens? x leaves dst (cs.map .chr ++ ss) =
      (tokens? x leaves dst ss).map (cs.map .chr ++ ·) := by
  induction cs with
  | nil => simp
  | cons c cs ih =>
    rw [map_cons, cons_append, tokens?, ih, Option.map_map]
    rfl

theorem tokens?_chars (cs : List Char) :
    tokens? x leaves dst (cs.map .chr) = some (cs.map .chr) := by
  have h : tokens? x leaves dst (cs.map .chr ++ []) = _ := tokens?_chars_append cs []
  rwa [append_nil, tokens?, Option.map_some, append_nil] at h

theorem tokens?_symbols {p : Part}
    (h : tokens? x leaves dst p.symbols = some ts) : holeTokens? x leaves dst p = some ts := by
  cases p with
  | text s =>
    rw [Part.symbols, tokens?_chars] at h
    exact h
  | _ =>
    simp only [Part.symbols, tokens?] at h
    split at h
    · rename_i us rest hp hrest
      cases hrest
      cases h
      rw [hp, append_nil]
    · cases h

theorem tokens?_symbols_append {p : Part} {ss : List Part.Symbol} {us vs : List Token}
    (hp : holeTokens? x leaves dst p = some us) (hss : tokens? x leaves dst ss = some vs) :
    tokens? x leaves dst (p.symbols ++ ss) = some (us ++ vs) := by
  cases p with
  | text s =>
    cases hp
    rw [Part.symbols, tokens?_chars_append, hss]
    rfl
  | leaf | out | fixed | onTrue | onFalse | label =>
    rw [Part.symbols, singleton_append, tokens?, hp, hss]
    simp

theorem exists_holeTokens_of_mem {parts : List Part}
    (h : tokens? x leaves dst (parts.flatMap Part.symbols) = some ts) :
    ∀ p ∈ parts, ∃ us, holeTokens? x leaves dst p = some us := by
  induction parts generalizing ts with
  | nil => nofun
  | cons p parts ih =>
    rw [flatMap_cons] at h
    obtain ⟨us, vs, h1, h2, rfl⟩ := tokens?_append h
    exact forall_mem_cons.mpr ⟨⟨us, tokens?_symbols h1⟩, ih h2⟩

/-- Parts one after the other are written as what stands in their places. -/
theorem foldlM_puts {parts : List Part} {d d' : Draft}
    (h : parts.foldlM (Draft.part x leaves dst) d = .ok d')
    (hout : ∀ access, .out access ∈ parts → dst.isSome = true) :
    ∃ ts, tokens? x leaves dst (parts.flatMap Part.symbols) = some ts ∧
      d.Puts parts.length ts d' := by
  revert hout
  refine Draft.of_foldlM (R := fun parts d d' =>
    (∀ access, .out access ∈ parts → dst.isSome = true) → ∃ ts,
      tokens? x leaves dst (parts.flatMap Part.symbols) = some ts ∧ d.Puts parts.length ts d')
    (fun d _ => ⟨[], rfl, prefix_rfl, prefix_rfl, by simp, [], by simp, .nil⟩) ?_ h
  intro p parts d d₁ d' hp ih hout
  obtain ⟨us, hus, hputs⟩ := hp.puts fun access heq => hout access (heq ▸ mem_cons_self)
  obtain ⟨vs, hvs, hrest⟩ := ih fun access hmem => hout access (mem_cons_of_mem _ hmem)
  refine ⟨us ++ vs, tokens?_symbols_append hus hvs, ?_⟩
  rw [length_cons, Nat.add_comm]
  exact hputs.trans hrest

/-- Parts that are filled without a register for the value make none. -/
theorem makesValue_of_tokens? {parts : List Part}
    (h : tokens? x leaves none (parts.flatMap Part.symbols) = some ts) :
    parts.any Part.makesValue = false := by
  refine any_eq_false.mpr fun p hp => ?_
  obtain ⟨us, hus⟩ := exists_holeTokens_of_mem h p hp
  cases p with
  | out access => cases hus
  | _ => nofun

/-! ### Instructions -/

/-- The instruction that a draft becomes. -/
def Draft.finish (d : Draft) (r : Recipe) (used : List (Option Reg))
    (dests : List (Option Label) × Bool) : Instr :=
  let reads := withRegs d.reads (r.uses.map some)
  let reads := if r.isCall then withRegs reads used else reads
  let writes := withRegs d.writes (r.defs.map some)
  { text := d.text, reads, writes, label := d.label
    isMove := r.isMove && isCopy reads writes
    dests := dests.1, next := dests.2 }

/-- Where the instruction of a recipe goes. -/
def destsOf (x : Node) (r : Recipe) : Except TemplateFault (List (Option Label) × Bool) :=
  if r.isBranch then branchDests x else .ok ([], false)

theorem instance?_eq {r : Recipe} {d : Draft} {dests : List (Option Label) × Bool}
    (hd : r.parts.foldlM (Draft.part x leaves dst) {} = .ok d) (hb : destsOf x r = .ok dests) :
    instance? x leaves dst used r = .ok (d.finish r used dests) := by
  unfold destsOf at hb
  rw [instance?, hd]
  dsimp only [bind, Except.bind]
  by_cases hbr : r.isBranch = true
  · rw [if_pos hbr] at hb ⊢
    rw [hb]
    rfl
  · rw [if_neg hbr] at hb ⊢
    cases hb
    rfl

variable {r : Recipe} {i : Instr}

/-- An instruction comes from a draft of its parts. -/
theorem of_instance? (h : instance? x leaves dst used r = .ok i) :
    ∃ d dests, r.parts.foldlM (Draft.part x leaves dst) {} = .ok d ∧ destsOf x r = .ok dests ∧
      i = d.finish r used dests := by
  cases hd : r.parts.foldlM (Draft.part x leaves dst) {} with
  | error e =>
    rw [instance?, hd] at h
    cases h
  | ok d =>
    cases hb : destsOf x r with
    | error e =>
      rw [instance?, hd] at h
      dsimp only [bind, Except.bind] at h
      unfold destsOf at hb
      split at hb
      · rename_i hbr
        rw [if_pos hbr, hb] at h
        cases h
      · cases hb
    | ok dests =>
      rw [instance?_eq hd hb] at h
      cases h
      exact ⟨d, dests, rfl, rfl, rfl⟩

theorem Draft.reads_finish (d : Draft) (r : Recipe) (used : List (Option Reg))
    (dests : List (Option Label) × Bool) : d.reads <+: (d.finish r used dests).reads := by
  show d.reads <+: (if r.isCall = true then _ else _)
  split
  · exact (withRegs_extends _ _).trans (withRegs_extends _ _)
  · exact withRegs_extends _ _

/-- The text of the instruction of a recipe is written for what the recipe is filled with, with no more
slots than it has parts. -/
theorem instance?_written (h : instance? x leaves dst used r = .ok i)
    (hout : ∀ access, .out access ∈ r.parts → dst.isSome = true) : ∃ ts reads writes,
      tokens? x leaves dst (r.parts.flatMap Part.symbols) = some ts ∧
        Written reads writes ts i.text.toList ∧ (reads <+: i.reads ∧ writes <+: i.writes) ∧
        reads.length ≤ r.parts.length ∧ writes.length ≤ r.parts.length := by
  obtain ⟨d, dests, hd, -, rfl⟩ := of_instance? h
  obtain ⟨ts, hts, hputs⟩ := foldlM_puts hd hout
  obtain ⟨cs, hcs, hwritten⟩ := hputs.text
  have htext : (d.finish r used dests).text.toList = cs := hcs
  refine ⟨ts, d.reads, d.writes, hts, htext ▸ hwritten,
    ⟨d.reads_finish r used dests, withRegs_extends _ _⟩, ?_⟩
  simpa using hputs.room

/-- The instruction of a recipe spells the recipe with its holes filled. -/
theorem instance?_spells (used : List (Option Reg)) {dests : List (Option Label) × Bool}
    (h : tokens? x leaves dst (r.parts.flatMap Part.symbols) = some ts)
    (hb : destsOf x r = .ok dests) :
    ∃ i, instance? x leaves dst used r = .ok i ∧ Spells i ts i.text.toList := by
  have hparts := exists_holeTokens_of_mem h
  obtain ⟨d, hd⟩ := Draft.exists_foldlM {} hparts
  have hi : instance? x leaves dst used r = .ok (d.finish r used dests) := instance?_eq hd hb
  obtain ⟨ts', reads, writes, hts, hwritten, ⟨hr, hw⟩, -⟩ := instance?_written hi fun access hout => by
    obtain ⟨us, hus⟩ := hparts _ hout
    obtain ⟨q, hq, -⟩ := Option.map_eq_some_iff.mp hus
    exact hq ▸ rfl
  rw [h] at hts
  cases hts
  exact ⟨_, hi, (hwritten.mono hr hw).spells⟩

/-! ### Filling in recipes -/

variable {t : Template} {recipes : List Recipe} {st st' : State} {code : Code}

/-- Filling in appends the instructions of the recipes that are kept. -/
theorem fill_eq_ok_iff : fill x t leaves dst used recipes st = .ok () st' ↔ ∃ code,
    List.Forall₂ (fun r i => instance? x leaves dst used r = .ok i)
      (recipes.filter (Recipe.isKept dst)) code ∧ st' = { st with code := st.code ++ code } := by
  induction recipes generalizing st with
  | nil =>
    rw [fill, filter_nil]
    constructor
    · intro h
      cases h
      exact ⟨[], .nil, by simp⟩
    · rintro ⟨_, ⟨⟩, rfl⟩
      rw [append_nil]
      rfl
  | cons r recipes ih =>
    rw [fill]
    cases hr : r.makesValue && dst.isNone with
    | true => rw [if_pos rfl, filter_cons_of_neg (by simp [Recipe.isKept, hr]), ih]
    | false =>
      rw [if_neg nofun, filter_cons_of_pos (by simp [Recipe.isKept, hr])]
      simp only [forall₂_cons_left_iff]
      cases hi : instance? x leaves dst used r with
      | error e => exact iff_of_false nofun (by simp)
      | ok i =>
        show fill x t leaves dst used recipes { st with code := st.code ++ [i] } = .ok () st' ↔ _
        rw [ih]
        constructor
        · rintro ⟨code, hcode, rfl⟩
          exact ⟨i :: code, ⟨i, code, rfl, hcode, rfl⟩, by simp⟩
        · rintro ⟨_, ⟨j, code, hj, hcode, rfl⟩, rfl⟩
          cases hj
          exact ⟨code, hcode, by simp⟩

theorem fill_eq (h : List.Forall₂ (fun r i => r.isKept dst = true ∧
      instance? x leaves dst used r = .ok i) recipes code) (st : State) :
    fill x t leaves dst used recipes st = .ok () { st with code := st.code ++ code } := by
  obtain ⟨hkept, hcode⟩ := (forall₂_and_left _ _).mp h
  exact fill_eq_ok_iff.mpr ⟨code, by rwa [filter_eq_self.mpr hkept], rfl⟩

end Selection

/-! ### Templates -/

namespace TemplateSource

open Assembly Selection

/-- What skeletons say to an instruction set when their holes are filled. -/
def readAll (isa : Isa) (reg? : String → Option Reg) (kinds : List LeafKind) (x : Node)
    (leaves : List Leaf) (dst : Option Reg) : List Skeleton → Option (List isa.Asm)
  | [] => some []
  | s :: rest =>
    match ((Part.symbols? reg? kinds s.text.toList).bind (tokens? x leaves dst)).bind isa.read,
      readAll isa reg? kinds x leaves dst rest with
    | some a, some as => some (a :: as)
    | _, _ => none

/-- What a template says to an instruction set when its holes are filled. -/
def asm? (isa : Isa) (reg? : String → Option Reg) (src : TemplateSource) (x : Node)
    (leaves : List Leaf) (dst : Option Reg) : Option (List isa.Asm) :=
  readAll isa reg? src.pattern.leafKinds x leaves dst src.skeletons

variable {isa : Isa} {reg? : String → Option Reg} {kinds : List LeafKind} {x : Node}
  {leaves : List Leaf} {dst : Option Reg}

/-- The instructions of recipes are read as what the skeletons say. -/
theorem readAll_reads {skeletons : List Skeleton} {recipes : List Recipe} {prog : List isa.Asm}
    (hs : List.Forall₂ (fun s r => Recipe.ofSkeleton reg? kinds s = .ok r) skeletons recipes)
    (hread : readAll isa reg? kinds x leaves dst skeletons = some prog)
    (hb : ∀ s ∈ skeletons, s.isBranch = true → ∃ dests, branchDests x = .ok dests)
    (used : List (Option Reg)) :
    ∃ code, List.Forall₂ isa.ReadsAs code prog ∧ List.Forall₂ (fun r i =>
      r.isKept dst = true ∧ instance? x leaves dst used r = .ok i) recipes code := by
  induction hs generalizing prog with
  | nil =>
    cases hread
    exact ⟨[], .nil, .nil⟩
  | @cons s r skeletons recipes hr _ ih =>
    rw [readAll] at hread
    split at hread
    · rename_i a as ha has
      cases hread
      obtain ⟨code, h1, h2⟩ := ih has fun s hs => hb s (mem_cons_of_mem _ hs)
      obtain ⟨ts, hts, hread⟩ := Option.bind_eq_some_iff.mp ha
      obtain ⟨ss, hss, htok⟩ := Option.bind_eq_some_iff.mp hts
      rw [← Recipe.symbols_eq hss hr] at htok
      obtain ⟨dests, hdests⟩ : ∃ dests, destsOf x r = .ok dests := by
        obtain ⟨_, _, _, -, -, -, rfl⟩ := Recipe.ofSkeleton_eq_ok_iff.mp hr
        unfold destsOf
        split
        · exact hb s mem_cons_self ‹_›
        · exact ⟨_, rfl⟩
      obtain ⟨i, h3, h4⟩ := instance?_spells used htok hdests
      refine ⟨i :: code, .cons ⟨ts, h4, hread⟩ h1, .cons ⟨?_, h3⟩ h2⟩
      cases dst with
      | some d => simp [Recipe.isKept]
      | none => simp [Recipe.isKept, Recipe.makesValue, makesValue_of_tokens? htok]
    · cases hread

/-- Filling in a template appends code that is read as what the template says. -/
theorem fill_reads {src : TemplateSource} {t : Template} {prog : List isa.Asm}
    (ht : Template.make reg? src.pattern src.skeletons src.wide = .ok t)
    (hread : src.asm? isa reg? x leaves dst = some prog)
    (hb : ∀ s ∈ src.skeletons, s.isBranch = true → ∃ dests, branchDests x = .ok dests)
    (used : List (Option Reg)) : ∃ code, List.Forall₂ isa.ReadsAs code prog ∧ ∀ st,
      fill x t leaves dst used t.recipes st = .ok () { st with code := st.code ++ code } := by
  obtain ⟨-, recipes, hs, rfl⟩ := Template.make_eq_ok_iff.mp ht
  obtain ⟨code, h1, h2⟩ := readAll_reads hs hread hb used
  exact ⟨code, h1, fill_eq h2⟩

end TemplateSource

end Codegen
