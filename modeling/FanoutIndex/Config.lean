import FanoutIndex.Text.Numeral
import FanoutIndex.Text.Quoted

/-!
# Configuration

The one thing to configure is the key width: how many bytes the keys of an index may have. It comes
from the caller or from an environment variable, and is checked against the capacity of the key
type when an index is built.
-/

namespace FanoutIndex

/-- The environment variable that sets the key width. -/
def keyWidthVariable : String := "FOURTREE_KEY_WIDTH"

inductive ConfigError where
  | zeroKeyWidth
  | keyWidthTooLarge (width capacity : Nat)
  | invalidVariable (name value : String)
  deriving DecidableEq, Repr

def ConfigError.message : ConfigError → String
  | zeroKeyWidth => "key width must be at least one byte"
  | keyWidthTooLarge width capacity =>
    "key width " ++ toString width ++ " exceeds maximum " ++ toString capacity
  | invalidVariable name value => "invalid value " ++ Text.quote value ++ " for " ++ name

/-- How an index is to be built; without a key width, keys may fill the key type. -/
structure Config where
  keyWidth : Option Nat := none
  deriving DecidableEq, Repr

namespace Config

/-- Reads the text of the environment variable, which may have blanks around its numeral. -/
def ofText (value : String) : Except ConfigError Config :=
  match Text.numeral? (Text.trimBlank value.toList) with
  | some width => .ok { keyWidth := some width }
  | none => .error (.invalidVariable keyWidthVariable value)

/-- Reads the environment: a variable that is unset, or not the encoding of a text, sets nothing. -/
def ofEnvironment : Option ByteArray → Except ConfigError Config
  | none => .ok {}
  | some bytes =>
    match String.fromUTF8? bytes with
    | none => .ok {}
    | some value => ofText value

/-- The key width of an index whose key type holds `capacity` bytes. -/
def resolveKeyWidth (config : Config) (capacity : Nat) : Except ConfigError Nat :=
  match config.keyWidth with
  | none => .ok capacity
  | some 0 => .error .zeroKeyWidth
  | some width =>
    if capacity < width then .error (.keyWidthTooLarge width capacity) else .ok width

theorem resolveKeyWidth_le {config : Config} {capacity width : Nat}
    (h : config.resolveKeyWidth capacity = .ok width) : width ≤ capacity := by
  unfold resolveKeyWidth at h
  split at h
  · simp at h; omega
  · simp at h
  · split at h
    · simp at h
    · simp at h; omega

end Config

end FanoutIndex
