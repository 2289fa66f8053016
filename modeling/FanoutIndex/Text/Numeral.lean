import FanoutIndex.Text.Combining

/-!
# Numerals

A numeral is one or more decimal digits after at most one plus sign, and denotes a number of 64
bits. Leading zeros are allowed; blanks, other signs and digits outside ASCII are not. The blanks
around a numeral are trimmed before it is read: they are the white space characters of Unicode.
-/

namespace FanoutIndex.Text

/-- The code points with the property `White_Space`. -/
def blankRanges : Ranges :=
  [(0x09, 0x0d), (0x20, 0x20), (0x85, 0x85), (0xa0, 0xa0), (0x1680, 0x1680), (0x2000, 0x200a),
    (0x2028, 0x2029), (0x202f, 0x202f), (0x205f, 0x205f), (0x3000, 0x3000)]

def isBlank (c : Char) : Bool := blankRanges.contains c

/-- A text without the blanks at its two ends. -/
def trimBlank (text : List Char) : List Char :=
  ((text.dropWhile isBlank).reverse.dropWhile isBlank).reverse

/-- The digits of a text that consists of digits alone. -/
def digitValues? (text : List Char) : Option (List Nat) :=
  text.mapM fun c => if c.isDigit then some (c.toNat - '0'.toNat) else none

/-- The number that a row of decimal digits denotes, most significant first. -/
def ofDigits (digits : List Nat) : Nat := digits.foldl (fun n d => 10 * n + d) 0

def dropPlus : List Char → List Char
  | '+' :: rest => rest
  | text => text

/-- Reads a numeral of at most 64 bits. -/
def numeral? (text : List Char) : Option Nat :=
  match dropPlus text with
  | [] => none
  | digits => (digitValues? digits).bind fun values =>
    let n := ofDigits values
    if n < UInt64.size then some n else none

end FanoutIndex.Text
