import Codegen.Bitmap.Basic

/-!
# Bitmaps addressed by integers

The operations of a bitmap for an index of any sign. The word of an index is its quotient by
sixty-four rounded toward zero, so the indices from -63 to -1 are sought in the first word, where no
bit answers to them, and smaller ones before it. Such an index is refused, except where the storage
has no word to look at; an insertion that is refused may already have grown the storage.
-/

namespace Codegen.Bitmap

/-- More words than this can not be asked for. -/
def maxWords : Int := (1 <<< 45 : Nat)

/-- An empty set with room for the elements below `n`, if there can be that much room. -/
def withCapacity? (n : Int64) : Option Bitmap :=
  let words := ((n + 63) / 64).toInt
  if 0 ≤ words && words ≤ maxWords then some (ofWords words.toNat) else none

/-- Whether looking for a negative index meets an existing word, or a place before the first. -/
def strays (s : Bitmap) (i : Int) : Bool := i ≤ -64 || !s.words.isEmpty

/-- Add an element; a negative index is refused, after making room for the first word if that is
where it was sought. -/
def insertAt (s : Bitmap) (i : Int) : Bitmap × Bool :=
  if 0 ≤ i then (s.insert i.toNat, true)
  else if -64 < i then (s.grow 1, false)
  else (s, false)

/-- Remove an element, unless the index is refused. -/
def eraseAt? (s : Bitmap) (i : Int) : Option Bitmap :=
  if 0 ≤ i then some (s.erase i.toNat) else if s.strays i then none else some s

/-- Whether the index is an element, unless it is refused. -/
def containsAt? (s : Bitmap) (i : Int) : Option Bool :=
  if 0 ≤ i then some (s.contains i.toNat) else if s.strays i then none else some false

end Codegen.Bitmap
