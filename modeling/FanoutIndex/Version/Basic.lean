import FanoutIndex.Fault
import FanoutIndex.Text.Described

/-!
# Versions

Every node carries a version: one 32-bit word that holds a lock bit, an inserting bit, and above
them a counter of completed structural changes. A reader takes the word of a version at rest as a
token, reads, and compares the word with the token; a writer locks, marks a structural change
before it writes one, and unlocks, which advances the counter if a change was marked. The counter
has 30 bits and wraps.
-/

namespace FanoutIndex

/-- The word of a version as a reader took it. -/
abbrev Token := UInt32

structure Version where
  word : UInt32
  deriving DecidableEq, Repr

namespace Version

/-- Set while a writer holds the lock. -/
def lockBit : UInt32 := 1

/-- Set while a structural change is in flight. -/
def insertingBit : UInt32 := 2

/-- Either of the two low bits. -/
def busyMask : UInt32 := 3

/-- What one structural change adds to the word. -/
def counterStep : UInt32 := 4

def new : Version := ⟨0⟩

instance : Inhabited Version := ⟨new⟩

def isLocked (v : Version) : Bool := v.word &&& lockBit != 0

def isInserting (v : Version) : Bool := v.word &&& insertingBit != 0

def isBusy (v : Version) : Bool := v.word &&& busyMask != 0

/-- Structural changes completed so far, modulo `2 ^ 30`. -/
def insertCount (v : Version) : UInt32 := v.word >>> 2

def stable? (v : Version) : Option Token := if v.isBusy then none else some v.word

/-- The version is not as it was when the token was taken; a lock counts as a change. -/
def hasChanged (v : Version) (token : Token) : Bool := v.word != token

/-- As `hasChanged`, asked by the owner of the lock, whose own lock is no change. -/
def hasChangedLocked (v : Version) (token : Token) : Bool := v.word &&& ~~~lockBit != token

def locked (v : Version) : Version := ⟨v.word ||| lockBit⟩

def tryLock? (v : Version) : Option Version := if v.isBusy then none else some v.locked

/-- The version once its lock is given back: a marked change is counted. -/
def released (v : Version) : Version :=
  if v.isInserting then ⟨(v.word + counterStep) &&& ~~~busyMask⟩ else ⟨v.word &&& ~~~lockBit⟩

def unlock (v : Version) : Except Fault Version :=
  if v.isLocked then .ok v.released else .error .unlockUnlocked

def markInsert (v : Version) : Except Fault Version :=
  if v.isLocked then .ok ⟨v.word ||| insertingBit⟩ else .error .markWithoutLock

def described (v : Version) : Text.Described :=
  .record "NodeVersion"
    [("locked", .ofBool v.isLocked), ("inserting", .ofBool v.isInserting),
      ("counter", .ofNat v.insertCount.toNat)]
    false

def describedLock (v : Version) : Text.Described :=
  .record "LockGuard" [("value", .ofNat v.word.toNat)] false

theorem stable?_eq_some_iff {v : Version} {token : Token} :
    v.stable? = some token ↔ v.isBusy = false ∧ token = v.word := by
  cases h : v.isBusy <;> simp [stable?, h, eq_comm]

theorem hasChanged_of_stable? {v : Version} {token : Token} (h : v.stable? = some token) :
    v.hasChanged token = false := by
  simp [hasChanged, (stable?_eq_some_iff.1 h).2]

end Version

end FanoutIndex
