import Codegen.Wire

/-!
# Bitmaps

Dense finite sets of natural numbers, sixty-four to a word. The words grow when an element beyond
them is inserted and never shrink. A bitmap also remembers whether storage was ever asked for: the
empty bitmap that nobody made room for is told apart from one with room when both are put on the
wire.
-/

namespace Codegen

/-- A set of natural numbers, element `64 * w + b` being bit `b` of word `w`. -/
structure Bitmap where
  /-- The words; elements beyond them are absent. -/
  words : Array UInt64 := #[]
  /-- Whether the bitmap was made with room for elements. -/
  made : Bool := false
deriving DecidableEq, Repr, Inhabited

namespace Bitmap

/-- The set without elements and without storage. -/
def empty : Bitmap := {}

/-- An empty set of the given number of words. -/
def ofWords (n : Nat) : Bitmap := { words := Array.replicate n 0, made := true }

/-- An empty set with room for the elements below `n`. -/
def withCapacity (n : Nat) : Bitmap := ofWords ((n + 63) / 64)

/-- The word in which only the bit of element `i` is set. -/
def mask (i : Nat) : UInt64 := 1 <<< UInt64.ofNat (i % 64)

/-- The word with the given index, zero beyond the storage. -/
def word (s : Bitmap) (w : Nat) : UInt64 := s.words.getD w 0

/-- The same set with at least `n` words. -/
def grow (s : Bitmap) (n : Nat) : Bitmap :=
  { s with words := s.words ++ Array.replicate (n - s.words.size) 0 }

/-- Replace one word of the storage. -/
def setWord (s : Bitmap) (w : Nat) (x : UInt64) : Bitmap :=
  { s with words := s.words.setIfInBounds w x }

/-- Whether `i` is an element. -/
def contains (s : Bitmap) (i : Nat) : Bool := s.word (i / 64) &&& mask i != 0

/-- Add an element. -/
def insert (s : Bitmap) (i : Nat) : Bitmap :=
  let s := s.grow (i / 64 + 1)
  s.setWord (i / 64) (s.word (i / 64) ||| mask i)

/-- Remove an element. -/
def erase (s : Bitmap) (i : Nat) : Bitmap :=
  s.setWord (i / 64) (s.word (i / 64) &&& ~~~(mask i))

/-- Remove all elements, keeping the storage. -/
def clear (s : Bitmap) : Bitmap := { s with words := s.words.map fun _ => 0 }

/-- Add all elements of another set. -/
def union (s t : Bitmap) : Bitmap :=
  let s := s.grow t.words.size
  { s with words := s.words.mapIdx fun w x => x ||| t.word w }

/-- Whether some element of `t` is missing in `s`. -/
def lacksSome (s t : Bitmap) : Bool :=
  (List.range t.words.size).any fun w => s.word w ||| t.word w != s.word w

/-- Add all elements of another set and report whether there was a new one. -/
def unionReport (s t : Bitmap) : Bool × Bitmap := (s.lacksSome t, s.union t)

/-- The position of the lowest bit set in a word, which is 64 for none. -/
def lowestBit (x : UInt64) : Nat :=
  ((List.range 64).find? fun b => x &&& mask b != 0).getD 64

/-- Take the lowest bit off a word as long as there is one, at most `n` times. -/
def takeBits : (n : Nat) → UInt64 → List Nat
  | 0, _ => []
  | n + 1, x => if x = 0 then [] else lowestBit x :: takeBits n (x &&& ~~~(mask (lowestBit x)))

/-- The positions of the bits set in a word, of which there are at most 64, from the lowest on. -/
def bitsOf (x : UInt64) : List Nat := takeBits 64 x

/-- The elements in increasing order. -/
def toList (s : Bitmap) : List Nat :=
  s.words.toList.zipIdx.flatMap fun (x, w) => (bitsOf x).map (64 * w + ·)

/-- The number of elements. -/
def size (s : Bitmap) : Nat := s.words.foldl (fun n x => n + (bitsOf x).length) 0

/-- Visit the elements in increasing order, up to and including the first one that `continues`
refuses, given the number of elements visited so far. -/
def visit (continues : Nat → Nat → Bool) (s : Bitmap) : List Nat :=
  go 0 s.toList
where
  /-- The visited part of a list of which `seen` elements came before. -/
  go (seen : Nat) : List Nat → List Nat
    | [] => []
    | i :: rest => if continues (seen + 1) i then i :: go (seen + 1) rest else [i]

/-- Whether the bitmap has no storage at all. -/
def isBare (s : Bitmap) : Bool := !s.made && s.words.isEmpty

/-- The wire form: the elements, or nothing if there is no storage. -/
def wire (s : Bitmap) : Wire :=
  if s.isBare then .nothing else .elements s.toList

end Bitmap

end Codegen
