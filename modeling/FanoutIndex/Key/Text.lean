import FanoutIndex.Key.Basic
import FanoutIndex.Text.Described

/-!
# Keys as text

The printable form of a key is the bytes of its padded string up to the last one that is not zero:
those from the space to the tilde stand for themselves, and any other is `\x` and two digits. The
backslash itself is not marked, so the form is for people to read.
-/

namespace FanoutIndex

open Text

/-- The bytes up to the last one that is not zero. -/
def dropPadding (bytes : Bytes) : Bytes := (bytes.reverse.dropWhile (· == 0)).reverse

/-- A byte that stands for itself. -/
def isPlainByte (b : UInt8) : Bool := 0x20 ≤ b && b ≤ 0x7e

def printByte (b : UInt8) : List Char :=
  if isPlainByte b then [Char.ofNat b.toNat] else '\\' :: 'x' :: hexPair b

namespace Key

variable {n : Nat}

def printable (key : Key n) : String :=
  String.ofList ((dropPadding key.toBytes).flatMap printByte)

def described (key : Key n) : Described := .wrapped "Key" (.text key.printable)

end Key

end FanoutIndex
