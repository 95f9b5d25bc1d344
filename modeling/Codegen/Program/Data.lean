import Codegen.Instr
import Codegen.Target.Basic
import Codegen.Text.Basic

/-!
# Static data

Labelled bytes written out as directives, sixteen bytes to a line.
-/

namespace Codegen

/-- The bytes on a line of data. -/
def lineBytes : Nat := 16

/-- Bytes in lines of sixteen. -/
def byteLines (data : List UInt8) : List (List UInt8) :=
  if data.isEmpty then []
  else data.take lineBytes :: byteLines (data.drop lineBytes)
termination_by data.length
decreasing_by
  have h : ¬data.isEmpty = true := ‹_›
  cases data with
  | nil => simp at h
  | cons b rest =>
    rw [List.length_drop, List.length_cons, lineBytes]
    omega

/-- A directive for the bytes of one line. -/
def byteLine (bytes : List UInt8) : Instr :=
  .plain (".byte " ++ ", ".intercalate (bytes.map fun b => "0x" ++ Text.hexByte b))

/-- The label and the bytes of a piece of static data. -/
def Blob.code (b : Blob) : Code := .place b.label :: (byteLines b.data).map byteLine

/-- The data section of some static data, which begins with the given header; nothing if there is no
data. -/
def dataCode (header : String) (blobs : List Blob) : Code :=
  if blobs.isEmpty then [] else .plain header :: blobs.flatMap Blob.code

end Codegen
