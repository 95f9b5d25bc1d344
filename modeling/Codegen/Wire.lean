/-!
# Wire form of values

A compact byte form for the few values that are handed to a log: nothing, text, a natural number and
a list of unknown length. A head byte carries the kind in its upper three bits and a number in the
lower five; numbers from 24 on follow the head in one, two, four or eight bytes, big end first.
-/

namespace Codegen

/-- A value that can be put on the wire. -/
inductive Wire
  | nothing
  | number (n : Nat)
  | text (s : String)
  | elements (list : List Nat)
deriving DecidableEq, Repr

namespace Wire

/-- The last `width` bytes of a number, most significant first. -/
def bigEndian : Nat → Nat → List UInt8
  | 0, _ => []
  | width + 1, n => bigEndian width (n / 256) ++ [UInt8.ofNat (n % 256)]

/-- A head of the given kind with its number. -/
def head (kind n : Nat) : List UInt8 :=
  if n < 24 then [UInt8.ofNat (kind + n)]
  else if n < 0x100 then UInt8.ofNat (kind + 24) :: bigEndian 1 n
  else if n < 0x10000 then UInt8.ofNat (kind + 25) :: bigEndian 2 n
  else if n < 0x100000000 then UInt8.ofNat (kind + 26) :: bigEndian 4 n
  else UInt8.ofNat (kind + 27) :: bigEndian 8 n

/-- The bytes of a value. A list is closed by a break instead of carrying its length. -/
def bytes : Wire → List UInt8
  | nothing => [0xf6]
  | number n => head 0x00 n
  | text s => head 0x60 s.utf8ByteSize ++ s.toUTF8.data.toList
  | elements list => 0x9f :: list.flatMap (head 0x00) ++ [0xff]

end Wire

end Codegen
