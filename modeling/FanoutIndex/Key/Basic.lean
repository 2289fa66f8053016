import FanoutIndex.Fault

/-!
# Keys

A key is a fixed number of 64-bit words. A byte string becomes a key eight bytes to a word, most
significant byte first, with zero bytes for those that are missing at the end; so two strings that
differ in trailing zero bytes only are the same key. `Key.ofBytes` encodes and `Key.toBytes` gives
the padded string back.
-/

namespace FanoutIndex

abbrev Bytes := List UInt8

def bytesPerWord : Nat := 8

/-- Words of a key where nothing else is asked for. -/
def defaultWords : Nat := 2

/-- A key of `n` words, most significant word first. -/
structure Key (n : Nat) where
  words : Vector UInt64 n
  deriving DecidableEq, Repr

theorem get_eq_getElem {α : Type} {n : Nat} (row : Vector α n) (i : Fin n) :
    row.get i = getElem row i.val i.isLt := rfl

/-- Reads `count` more bytes into a word, zero for each that is missing. -/
def packBytes : (count : Nat) → UInt64 → Bytes → UInt64
  | 0, word, _ => word
  | count + 1, word, [] => packBytes count (word * 256) []
  | count + 1, word, b :: rest => packBytes count (word * 256 + b.toUInt64) rest

/-- The word that a byte string starts with. -/
def packWord (bytes : Bytes) : UInt64 := packBytes bytesPerWord 0 bytes

def unpackWord (word : UInt64) : Bytes :=
  [(word >>> 56).toUInt8, (word >>> 48).toUInt8, (word >>> 40).toUInt8, (word >>> 32).toUInt8,
    (word >>> 24).toUInt8, (word >>> 16).toUInt8, (word >>> 8).toUInt8, word.toUInt8]

@[simp]
theorem length_unpackWord (word : UInt64) : (unpackWord word).length = bytesPerWord := rfl

namespace Key

/-- Bytes that a key of `n` words holds. -/
def capacity (n : Nat) : Nat := n * bytesPerWord

/-- The key whose words are all zero, which the empty string encodes to. -/
def zero (n : Nat) : Key n := ⟨Vector.replicate n 0⟩

/-- Encodes a byte string that fits. -/
def ofBytes (n : Nat) (data : Bytes) : Except Fault (Key n) :=
  if data.length ≤ capacity n then
    .ok ⟨Vector.ofFn fun i => packWord (data.drop (i * bytesPerWord))⟩
  else
    .error (.keyBeyondCapacity data.length (capacity n))

/-- The padded byte string of a key. -/
def toBytes {n : Nat} (key : Key n) : Bytes := key.words.toList.flatMap unpackWord

def word {n : Nat} (key : Key n) (index : Nat) : Except Fault UInt64 :=
  if h : index < n then .ok key.words[index] else .error (.indexOutOfBounds n index)

theorem ofBytes_eq_error_iff {n : Nat} {data : Bytes} {fault : Fault} :
    ofBytes n data = .error fault ↔
      capacity n < data.length ∧ fault = .keyBeyondCapacity data.length (capacity n) := by
  unfold ofBytes
  split
  · simp; omega
  · simp [eq_comm]; omega

@[simp]
theorem length_toBytes {n : Nat} (key : Key n) : key.toBytes.length = capacity n := by
  have h : ∀ l : List UInt64, (l.flatMap unpackWord).length = l.length * bytesPerWord := by
    intro l
    induction l with
    | nil => simp
    | cons word rest ih => simp [ih, Nat.add_mul, Nat.add_comm]
  simp [toBytes, h, capacity]

end Key

end FanoutIndex
