import Codegen.Text.Printable

/-!
# Text

Ways to write and to read text: blanks that bring it to a least width; lower-case hexadecimal digits,
padded to a fixed width; decimal numbers of 64 bits, of which a sign may stand in front and one that
does not fit is refused; and text between double quotes, on one line. In quoted text a quote and a
backslash get a backslash before them, seven control characters have a letter of their own, and
whatever else is not printable is written by its number: two digits for the ASCII controls, four or
eight for the rest.
-/

namespace Codegen.Text

/-! ### Padding -/

/-- Blanks behind a text. -/
def padRight (width : Nat) (s : String) : String :=
  s ++ String.ofList (List.replicate (width - s.length) ' ')

/-- Blanks before a text. -/
def padLeft (width : Nat) (s : String) : String :=
  String.ofList (List.replicate (width - s.length) ' ') ++ s

/-! ### Hexadecimal text -/

/-- The lower-case hexadecimal digit of a number below sixteen. -/
def hexDigit (n : Nat) : Char :=
  if n < 10 then Char.ofNat (48 + n) else Char.ofNat (87 + n)

/-- The last `width` hexadecimal digits of a number, most significant first. -/
def hexDigits : Nat → Nat → List Char
  | 0, _ => []
  | width + 1, n => hexDigits width (n / 16) ++ [hexDigit (n % 16)]

/-- The last `width` hexadecimal digits of a number as text. -/
def hex (width n : Nat) : String := String.ofList (hexDigits width n)

/-- The two hexadecimal digits of a byte. -/
def hexByte (b : UInt8) : String := hex 2 b.toNat

/-! ### Decimal numbers -/

/-- The number written by a list of decimal digits. -/
def digitsValue (ds : List Char) : Nat :=
  ds.foldl (fun n d => 10 * n + (d.toNat - 48)) 0

/-- Read a natural number below 2^63. -/
def readNat? (cs : List Char) : Option Nat :=
  if cs.isEmpty || !cs.all Char.isDigit then none
  else if digitsValue cs < 1 <<< 63 then some (digitsValue cs) else none

/-- Read an integer of 64 bits with an optional sign. -/
def readInt? (cs : List Char) : Option Int :=
  match cs with
  | '-' :: ds =>
    if ds.isEmpty || !ds.all Char.isDigit then none
    else if digitsValue ds ≤ 1 <<< 63 then some (-(digitsValue ds : Int)) else none
  | '+' :: ds => (readNat? ds).map Int.ofNat
  | ds => (readNat? ds).map Int.ofNat

/-! ### Quoted text -/

/-- One character as it stands inside quoted text. -/
def escapeChar (c : Char) : String :=
  match c.toNat with
  | 0x07 => "\\a"
  | 0x08 => "\\b"
  | 0x09 => "\\t"
  | 0x0a => "\\n"
  | 0x0b => "\\v"
  | 0x0c => "\\f"
  | 0x0d => "\\r"
  | 0x22 => "\\\""
  | 0x5c => "\\\\"
  | n =>
    if isPrintable c then c.toString
    else if n < 0x20 || n == 0x7f then "\\x" ++ hex 2 n
    else if n < 0x10000 then "\\u" ++ hex 4 n
    else "\\U" ++ hex 8 n

/-- The text between double quotes. -/
def quoted (s : String) : String :=
  "\"" ++ String.join (s.toList.map escapeChar) ++ "\""

end Codegen.Text
