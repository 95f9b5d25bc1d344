import Codegen.Program.Basic
import Codegen.Proofs.Pass
import Codegen.Proofs.Target
import Mathlib.Data.List.Chain
import Mathlib.Tactic.IntervalCases

/-!
# Reading static data back

A data section can be read line by line (`readData`): a line that places a label begins a piece of
data, and the bytes of a directive are added to the last piece. What is written for some static data
reads back as that data, in lines of sixteen bytes of which only the last of a piece may have fewer
(`dataCode_reads_back`).
-/

namespace Codegen

open List

/-! ### Reading hexadecimal numbers -/

/-- The value of a hexadecimal digit. -/
def Text.hexValue? (c : Char) : Option Nat :=
  if '0' ≤ c ∧ c ≤ '9' then some (c.toNat - 48)
  else if 'a' ≤ c ∧ c ≤ 'f' then some (c.toNat - 87)
  else if 'A' ≤ c ∧ c ≤ 'F' then some (c.toNat - 55)
  else none

/-- Bytes from hexadecimal numbers of two digits each, with commas between them. -/
def readBytes : List Char → Option (List UInt8)
  | ['0', 'x', h, l] => do
    let h ← Text.hexValue? h
    let l ← Text.hexValue? l
    return [UInt8.ofNat (16 * h + l)]
  | '0' :: 'x' :: h :: l :: ',' :: ' ' :: rest => do
    let h ← Text.hexValue? h
    let l ← Text.hexValue? l
    let bytes ← readBytes rest
    return UInt8.ofNat (16 * h + l) :: bytes
  | _ => none

theorem Text.hexValue?_hexDigit {n : Nat} (h : n < 16) : hexValue? (hexDigit n) = some n := by
  interval_cases n <;> rfl

/-- The characters of a byte as a hexadecimal number. -/
def byteChars (b : UInt8) : List Char := ("0x" ++ Text.hexByte b).toList

theorem byteChars_eq (b : UInt8) :
    byteChars b = ['0', 'x', Text.hexDigit (b.toNat / 16), Text.hexDigit (b.toNat % 16)] := by
  have hb : b.toNat / 16 % 16 = b.toNat / 16 := Nat.mod_eq_of_lt (by have := b.toNat_lt; omega)
  simp [byteChars, Text.hexByte, Text.hex, Text.hexDigits, hb]

theorem ofNat_halves (b : UInt8) : UInt8.ofNat (16 * (b.toNat / 16) + b.toNat % 16) = b := by
  rw [Nat.div_add_mod, UInt8.ofNat_toNat]

/-- Bytes that are written with commas between them are read back. -/
theorem readBytes_intercalate (b : UInt8) (bytes : List UInt8) :
    readBytes ([',', ' '].intercalate ((b :: bytes).map byteChars)) = some (b :: bytes) := by
  have hhigh (b : UInt8) : b.toNat / 16 < 16 := by have := b.toNat_lt; omega
  have hlow (b : UInt8) : b.toNat % 16 < 16 := Nat.mod_lt _ (by decide)
  induction bytes generalizing b with
  | nil =>
    simp only [map_cons, map_nil, intercalate_singleton, byteChars_eq, readBytes,
      Text.hexValue?_hexDigit (hhigh b), Text.hexValue?_hexDigit (hlow b), Option.bind_eq_bind,
      Option.bind_some, Option.pure_def, ofNat_halves]
  | cons b' bytes ih =>
    rw [map_cons, map_cons, intercalate_cons_cons, ← map_cons, byteChars_eq]
    simp only [cons_append, nil_append, readBytes,
      Text.hexValue?_hexDigit (hhigh b), Text.hexValue?_hexDigit (hlow b), Option.bind_eq_bind,
      Option.bind_some, Option.pure_def, ofNat_halves, ih]

/-! ### Reading lines -/

/-- What a directive for bytes says behind its name. Other lines, such as places of labels, say
nothing of bytes. -/
def Instr.byteText? (x : Instr) : Option (List Char) :=
  if x.label.isSome then none else x.text.toList.dropPrefix? ".byte ".toList

/-- The bytes that a line carries. -/
def Instr.bytes? (x : Instr) : Option (List UInt8) := x.byteText?.bind readBytes

/-- The data read so far after one more line: a label, under its name, begins a new piece, and bytes
go to the last piece. Bytes that can not be read, or that no label comes before, are refused. -/
def readLine (done : List Blob) (x : Instr) : Option (List Blob) :=
  match x.label with
  | some l => if x.text = l.text ++ ":" then some (done ++ [⟨l, []⟩]) else none
  | none =>
    match x.byteText? with
    | none => some done
    | some cs => do
      let bytes ← readBytes cs
      let b ← done.getLast?
      return done.dropLast ++ [{ b with data := b.data ++ bytes }]

/-- The static data that code holds. -/
def readData (code : Code) : Option (List Blob) := code.foldlM readLine []

theorem byteText?_byteLine (bytes : List UInt8) :
    (byteLine bytes).byteText? = some ([',', ' '].intercalate (bytes.map byteChars)) := by
  have hlabel : (byteLine bytes).label = none := rfl
  have htext : (byteLine bytes).text.toList =
      ".byte ".toList ++ [',', ' '].intercalate (bytes.map byteChars) := by
    show (".byte " ++ ", ".intercalate _).toList = _
    rw [String.toList_append, String.toList_intercalate, map_map]
    rfl
  rw [Instr.byteText?, hlabel, htext]
  exact dropPrefix?_append_of_beq _ (beq_self_eq_true _)

/-- A line carries the bytes that it was written for, if there are any. -/
theorem bytes?_byteLine {bytes : List UInt8} (h : bytes ≠ []) :
    (byteLine bytes).bytes? = some bytes := by
  obtain ⟨b, bytes, rfl⟩ := exists_cons_of_ne_nil h
  rw [Instr.bytes?, byteText?_byteLine, Option.bind_some, readBytes_intercalate]

theorem bytes?_place (l : Label) : (Instr.place l).bytes? = none := rfl

theorem readLine_place (done : List Blob) (l : Label) :
    readLine done (.place l) = some (done ++ [⟨l, []⟩]) := by
  simp [readLine, Instr.place]

theorem readLine_byteLine (done : List Blob) (l : Label) (data : List UInt8) {bytes : List UInt8}
    (h : bytes ≠ []) :
    readLine (done ++ [⟨l, data⟩]) (byteLine bytes) = some (done ++ [⟨l, data ++ bytes⟩]) := by
  have hbytes := bytes?_byteLine h
  rw [Instr.bytes?, byteText?_byteLine, Option.bind_some] at hbytes
  have hlabel : (byteLine bytes).label = none := rfl
  simp [readLine, hlabel, byteText?_byteLine, hbytes]

/-! ### Lines of sixteen bytes -/

@[simp] theorem byteLines_nil : byteLines [] = [] := by rw [byteLines]; rfl

/-- Nothing is lost between the lines. -/
theorem flatten_byteLines (data : List UInt8) : (byteLines data).flatten = data := by
  fun_induction byteLines data with
  | case1 data h => simp [isEmpty_iff.mp h]
  | case2 data h ih => rw [flatten_cons, ih, take_append_drop]

/-- Each line has at least one byte and at most sixteen. -/
theorem length_of_mem_byteLines {data line : List UInt8} (h : line ∈ byteLines data) :
    1 ≤ line.length ∧ line.length ≤ lineBytes := by
  fun_induction byteLines data with
  | case1 data hnil => cases h
  | case2 data hnil ih =>
    rcases mem_cons.mp h with rfl | h
    · have hpos : 0 < data.length := length_pos_iff.mpr (by simpa using hnil)
      rw [length_take]
      exact ⟨Nat.le_min.mpr ⟨by decide, hpos⟩, Nat.min_le_left _ _⟩
    · exact ih h

/-- A line that another one comes after is full. -/
theorem isChain_byteLines (data : List UInt8) :
    (byteLines data).IsChain fun line _ => line.length = lineBytes := by
  fun_induction byteLines data with
  | case1 data h => exact .nil
  | case2 data h ih =>
    rw [isChain_cons]
    refine ⟨fun next hnext => ?_, ih⟩
    have hmore : data.drop lineBytes ≠ [] := by
      intro hnil
      rw [hnil, byteLines_nil] at hnext
      cases hnext
    rw [length_take, Nat.min_eq_left]
    by_contra hlt
    exact hmore (drop_eq_nil_of_le (by omega))

/-! ### Pieces of data -/

/-- The bytes of lines are added to the piece that was begun last. -/
theorem foldlM_readLine_byteLine (done : List Blob) (l : Label) (data : List UInt8)
    {lines : List (List UInt8)} (h : ∀ line ∈ lines, line ≠ []) :
    (lines.map byteLine).foldlM readLine (done ++ [⟨l, data⟩]) =
      some (done ++ [⟨l, data ++ lines.flatten⟩]) := by
  induction lines generalizing data with
  | nil => simp
  | cons line lines ih =>
    rw [forall_mem_cons] at h
    rw [map_cons, foldlM_cons, readLine_byteLine done l data h.1, Option.bind_eq_bind,
      Option.bind_some, ih _ h.2, flatten_cons, append_assoc]

theorem ne_nil_of_mem_byteLines {data line : List UInt8} (h : line ∈ byteLines data) : line ≠ [] :=
  length_pos_iff.mp (length_of_mem_byteLines h).1

/-- A piece of data is read back behind those before it. -/
theorem foldlM_readLine_code (done : List Blob) (b : Blob) :
    b.code.foldlM readLine done = some (done ++ [b]) := by
  rw [Blob.code, foldlM_cons, readLine_place, Option.bind_eq_bind, Option.bind_some,
    foldlM_readLine_byteLine done b.label [] fun line => ne_nil_of_mem_byteLines,
    flatten_byteLines, nil_append]

theorem foldlM_readLine_flatMap (done blobs : List Blob) :
    (blobs.flatMap Blob.code).foldlM readLine done = some (done ++ blobs) := by
  induction blobs generalizing done with
  | nil => simp
  | cons b blobs ih =>
    rw [flatMap_cons, foldlM_append, foldlM_readLine_code, Option.bind_eq_bind,
      Option.bind_some, ih, append_assoc, singleton_append]

/-- Behind a line with fewer bytes than fit on it, a label comes. -/
def Instr.FullBefore (x y : Instr) : Prop :=
  ∀ bytes, x.bytes? = some bytes → bytes.length < lineBytes → ∃ l, y = .place l

theorem fullBefore_of_bytes? {x y : Instr} (hx : x.bytes? = none) : x.FullBefore y :=
  fun bytes hbytes => by rw [hx] at hbytes; cases hbytes

theorem isChain_code (b : Blob) : b.code.IsChain Instr.FullBefore := by
  rw [Blob.code, isChain_cons]
  refine ⟨fun y _ => fullBefore_of_bytes? (bytes?_place b.label), ?_⟩
  rw [isChain_map]
  refine List.IsChain.imp_of_mem_imp (fun line _ hline _ hfull bytes hbytes hlt => ?_)
    (isChain_byteLines b.data)
  rw [bytes?_byteLine (ne_nil_of_mem_byteLines hline)] at hbytes
  cases hbytes
  exact absurd hfull hlt.ne

theorem isChain_flatMap_code (blobs : List Blob) :
    (blobs.flatMap Blob.code).IsChain Instr.FullBefore := by
  induction blobs with
  | nil => exact .nil
  | cons b blobs ih =>
    rw [flatMap_cons, isChain_append]
    refine ⟨isChain_code b, ih, fun x _ y hy bytes _ _ => ?_⟩
    -- whatever ends this piece, the next one begins with its label
    cases blobs with
    | nil => cases hy
    | cons b' blobs =>
      cases hy
      exact ⟨b'.label, rfl⟩

theorem length_of_mem_code {b : Blob} {x : Instr} {bytes : List UInt8} (hx : x ∈ b.code)
    (hbytes : x.bytes? = some bytes) : 1 ≤ bytes.length ∧ bytes.length ≤ lineBytes := by
  rcases mem_cons.mp hx with rfl | hx
  · rw [bytes?_place] at hbytes
    cases hbytes
  · obtain ⟨line, hline, rfl⟩ := mem_map.mp hx
    rw [bytes?_byteLine (ne_nil_of_mem_byteLines hline)] at hbytes
    cases hbytes
    exact length_of_mem_byteLines hline

/-! ### Data sections -/

section

variable {header : String} (hheader : (Instr.plain header).byteText? = none) (blobs : List Blob)

theorem mem_dataCode {blobs : List Blob} {x : Instr} (hx : x ∈ dataCode header blobs) :
    x = .plain header ∨ ∃ b ∈ blobs, x ∈ b.code := by
  rw [dataCode] at hx
  split at hx
  · cases hx
  · exact (mem_cons.mp hx).imp_right mem_flatMap.mp

include hheader

theorem readData_dataCode : readData (dataCode header blobs) = some blobs := by
  have hskip : readLine [] (.plain header) = some [] := by
    have hlabel : (Instr.plain header).label = none := rfl
    simp only [readLine, hlabel, hheader]
  rw [dataCode]
  split
  · rename_i hnil
    rw [isEmpty_iff.mp hnil]
    rfl
  · rw [readData, foldlM_cons, hskip, Option.bind_eq_bind, Option.bind_some,
      foldlM_readLine_flatMap, nil_append]

theorem isChain_dataCode : (dataCode header blobs).IsChain Instr.FullBefore := by
  rw [dataCode]
  split
  · exact .nil
  · rw [isChain_cons]
    refine ⟨fun y _ => fullBefore_of_bytes? ?_, isChain_flatMap_code blobs⟩
    rw [Instr.bytes?, hheader, Option.bind_none]

end

theorem byteText?_dataSection (a : Arch) (s : Supply) :
    (Instr.plain (a.make s).1.dialect.dataSection).byteText? = none := by
  have hsection : (a.make s).1.dialect.dataSection = ".section .rodata" := by cases a <;> rfl
  rw [hsection]
  simp [Instr.byteText?, Instr.plain, List.dropPrefix?]

open Pass in
/-- A compiled program ends with the static data of the supply that it was compiled with. -/
theorem Program.ends_compile_data (t : Target) (cfg : Allocation.Config) (p : Program) (b : Bench) :
    Ends (p.compile t cfg) b
      (fun r b' => r.data = dataCode t.dialect.dataSection b'.supply.blobs) fun _ => True := by
  -- the data is written last, so that the stages before do not matter
  have hthen {α β : Type} {x : Pass Bench α} {f : α → Pass Bench β} {b : Bench}
      {ok : β → Bench → Prop} (h : ∀ a b', Ends (f a) b' ok fun _ => True) :
      Ends (x >>= f) b ok fun _ => True :=
    ends_bind.mpr (ends_of_forall fun a b' _ => h a b')
  unfold Program.compile
  refine hthen fun b₀ b => ?_
  dsimp only
  split
  · exact ends_bind.mpr (ends_fail.mpr trivial)
  · split
    · exact ends_fail.mpr trivial
    · refine hthen fun fn b => hthen fun f b => hthen fun start b => hthen fun first b =>
        hthen fun others b => ends_bind.mpr ?_
      exact ends_get.mpr (ends_pure.mpr rfl)

/-- The data section of a machine, read line by line, holds the static data that it was written for:
all of it, under its labels and in its order; for a compiled program this is the data of the supply.
A line of bytes has at least one and at most sixteen, and where it has fewer than sixteen, it is the
last line of its piece. Without data there is no section. -/
theorem dataCode_reads_back (a : Arch) (s : Supply) (blobs : List Blob) :
    readData (dataCode (a.make s).1.dialect.dataSection blobs) = some blobs ∧
    (∀ cfg p b r b', Program.compile (a.make s).1 cfg p b = .ok r b' →
      readData r.data = some b'.supply.blobs) ∧
    (∀ x ∈ dataCode (a.make s).1.dialect.dataSection blobs, ∀ bytes, x.bytes? = some bytes →
      1 ≤ bytes.length ∧ bytes.length ≤ 16) ∧
    ((dataCode (a.make s).1.dialect.dataSection blobs).IsChain fun x y => ∀ bytes,
      x.bytes? = some bytes → bytes.length < 16 → ∃ l, y = .place l) ∧
    dataCode (a.make s).1.dialect.dataSection [] = [] := by
  refine ⟨readData_dataCode (byteText?_dataSection a s) blobs, fun cfg p b r b' hrun => ?_,
    fun x hx bytes hbytes => ?_, isChain_dataCode (byteText?_dataSection a s) blobs, rfl⟩
  · rw [(Program.ends_compile_data _ cfg p b).of_ok hrun]
    exact readData_dataCode (byteText?_dataSection a s) _
  · rcases mem_dataCode hx with rfl | ⟨b, -, hx⟩
    · rw [Instr.bytes?, byteText?_dataSection a s] at hbytes
      cases hbytes
    · exact length_of_mem_code hx hbytes

/-- Seventeen bytes and a piece without any. -/
def twoPieces : List Blob :=
  [⟨⟨0, 0, ""⟩, 7 :: List.replicate 15 0 ++ [255]⟩, ⟨⟨0, 1, ""⟩, []⟩]

theorem twoPieces_reads_back :
    readData (dataCode ".section .rodata" twoPieces) = some twoPieces ∧
    byteLine [255] ∈ dataCode ".section .rodata" twoPieces ∧
    (byteLine [255]).bytes? = some [255] ∧ 1 ≤ [255].length ∧ [255].length ≤ 16 := by
  obtain ⟨hread, -, hlength, -⟩ := dataCode_reads_back .arm64 {} twoPieces
  have hline : [255] ∈ byteLines (7 :: List.replicate 15 0 ++ [255]) := by
    simp [byteLines, lineBytes, List.replicate]
  have hmem : byteLine [255] ∈ dataCode ".section .rodata" twoPieces :=
    mem_cons_of_mem _ (mem_flatMap.mpr
      ⟨_, mem_cons_self, mem_cons_of_mem _ (mem_map_of_mem hline)⟩)
  exact ⟨hread, hmem, bytes?_byteLine (by simp), hlength _ hmem _ (bytes?_byteLine (by simp))⟩

end Codegen
