namespace FanoutIndex

/-- A time in nanoseconds. -/
structure Elapsed where
  nanoseconds : Nat
  deriving DecidableEq, Repr

namespace Elapsed

/-- A number of `digits` decimal places without the zeros at its end. -/
def decimals (digits fraction : Nat) : String :=
  let text := (toString fraction).toList
  let padded := List.replicate (digits - text.length) '0' ++ text
  let kept := (padded.reverse.dropWhile (· == '0')).reverse
  if kept.isEmpty then "" else "." ++ String.ofList kept

def text (time : Elapsed) : String :=
  let t := time.nanoseconds
  if 1_000_000_000 ≤ t then toString (t / 1_000_000_000) ++ decimals 9 (t % 1_000_000_000) ++ "s"
  else if 1_000_000 ≤ t then toString (t / 1_000_000) ++ decimals 6 (t % 1_000_000) ++ "ms"
  else if 1_000 ≤ t then toString (t / 1_000) ++ decimals 3 (t % 1_000) ++ "µs"
  else toString t ++ "ns"

/-- Millions of operations a second, to the nearest hundredth. -/
def rate (time : Elapsed) (operations : Nat) : String :=
  let t := max 1 time.nanoseconds
  let hundredths := (2 * operations * 100_000 + t) / (2 * t)
  let cents := toString (hundredths % 100)
  toString (hundredths / 100) ++ "." ++ (if hundredths % 100 < 10 then "0" ++ cents else cents)

def withRate (time : Elapsed) (operations : Nat) : String :=
  time.text ++ " (" ++ time.rate operations ++ " Mops/s)"

end Elapsed

end FanoutIndex
