import FanoutIndex.Text.Printable

/-!
# Quoted text

A quoted text stands between double quotes. Quotes and backslashes in it follow a backslash, a few
controls have escapes of one letter, and every other character that would not show on its own is
written as the hexadecimal number of its code point.
-/

namespace FanoutIndex.Text

/-- The lower-case hexadecimal digits of a number, without leading zeros. -/
def hexDigits (n : Nat) : List Char := Nat.toDigits 16 n

def hexPair (b : UInt8) : List Char :=
  [Nat.digitChar (b.toNat / 16), Nat.digitChar (b.toNat % 16)]

def hexBytes (bytes : List UInt8) : String := String.ofList (bytes.flatMap hexPair)

def escapeCodePoint (c : Char) : List Char :=
  ['\\', 'u', '\x7b'] ++ hexDigits c.toNat ++ ['\x7d']

/-- How one character stands inside quotes. -/
def escapeChar (c : Char) : List Char :=
  match c with
  | '"' => ['\\', '"']
  | '\\' => ['\\', '\\']
  | '\n' => ['\\', 'n']
  | '\t' => ['\\', 't']
  | '\r' => ['\\', 'r']
  | '\x00' => ['\\', '0']
  | c => if isCombining c || !isPrintable c then escapeCodePoint c else [c]

def quoteChars (text : List Char) : List Char := '"' :: (text.flatMap escapeChar ++ ['"'])

def quote (text : String) : String := String.ofList (quoteChars text.toList)

end FanoutIndex.Text
