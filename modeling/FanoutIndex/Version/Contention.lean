import Mathlib.Logic.Function.Basic
import FanoutIndex.Version.Basic

/-!
# Contention

Clients that work on one version through guards. Each call is taken apart into the loads, stores and
exchanges of the version word that it is made of, and these are what is indivisible. Which call a
client makes next is decided only when it is made, so the runs are those of all programs, also of
those that go on for ever.
-/

namespace FanoutIndex

namespace Contention

/-- A call of a client. -/
inductive Request where
  | stable
  | hasChanged (token : Token)
  /-- Ask through the guard, whose own lock is no change. -/
  | guardHasChanged (token : Token)
  | tryAcquire
  | markInsert
  | drop
  deriving DecidableEq, Repr

inductive Reply where
  | token (token : Token)
  | changed (answer : Bool)
  | acquired (success : Bool)
  | marked
  /-- The guard is gone; whether it was marked. -/
  | dropped (isMarked : Bool)
  deriving DecidableEq, Repr

/-- The access that a call makes next. -/
inductive Stage where
  /-- Load the word, again and again until it is at rest. -/
  | awaitToken
  | compare (token : Token)
  | compareLocked (token : Token)
  /-- Load the word to see whether it can be locked. -/
  | readToLock
  /-- Exchange the word for its locked form, unless it has changed. -/
  | swapLocked (expected : Version)
  | readToMark
  | storeMark (marked : Version)
  | readToUnlock
  | storeUnlock (unlocked : Version)
  /-- The call broke a contract, and its client does nothing more. -/
  | broken (cause : Fault)
  deriving DecidableEq, Repr

/-- Where a call stands after an access. -/
inductive Progress where
  | next (stage : Stage)
  | returned (reply : Reply)
  deriving DecidableEq, Repr

/-- The guard that a client has, if it has one, by whether it stored its mark. -/
abbrev Guard := Option Bool

/-- The first access of a call. Only a client with a guard can mark it, drop it or ask it. -/
def Request.start (guard : Guard) : Request → Option Stage
  | stable => some .awaitToken
  | hasChanged token => some (.compare token)
  | guardHasChanged token => guard.map fun _ => .compareLocked token
  | tryAcquire => some .readToLock
  | markInsert => guard.map fun _ => .readToMark
  | drop => guard.map fun _ => .readToUnlock

namespace Stage

def withVersion (version : Except Fault Version) (next : Version → Stage) : Progress :=
  match version with
  | .ok version => .next (next version)
  | .error cause => .next (.broken cause)

/-- Makes an access: where the call stands, and the guard and the version afterwards. -/
def access (guard : Guard) (version : Version) : Stage → Progress × Guard × Version
  | awaitToken =>
    match version.stable? with
    | none => (.next .awaitToken, guard, version)
    | some token => (.returned (.token token), guard, version)
  | compare token => (.returned (.changed (version.hasChanged token)), guard, version)
  | compareLocked token => (.returned (.changed (version.hasChangedLocked token)), guard, version)
  | readToLock =>
    if version.isBusy then (.returned (.acquired false), guard, version)
    else (.next (.swapLocked version), guard, version)
  | swapLocked expected =>
    if version = expected then (.returned (.acquired true), some false, expected.locked)
    else (.returned (.acquired false), guard, version)
  | readToMark => (withVersion version.markInsert .storeMark, guard, version)
  | storeMark marked => (.returned .marked, some true, marked)
  | readToUnlock => (withVersion version.unlock .storeUnlock, guard, version)
  | storeUnlock unlocked => (.returned (.dropped (guard == some true)), none, unlocked)
  | broken cause => (.next (.broken cause), guard, version)

end Stage

structure Client where
  guard : Guard
  /-- The next access of the call under way, if there is one. -/
  stage : Option Stage
  deriving DecidableEq, Repr

/-- What happens next: a client that is between two calls begins one, or the call of a client that
is not makes its next access. -/
inductive Move (κ : Type) where
  | begin (c : κ) (request : Request)
  | access (c : κ)
  deriving DecidableEq, Repr

structure State (κ : Type) where
  version : Version
  clients : κ → Client
  /-- What the calls returned so far, oldest first. -/
  replies : List (κ × Reply)

namespace State

variable {κ : Type}

/-- A version with a given word, and clients that have no guard and made no call. -/
def ofWord (word : UInt32) : State κ := ⟨⟨word⟩, fun _ => ⟨none, none⟩, []⟩

def sections (state : State κ) : Nat := state.replies.countP fun entry => entry.2 = .dropped true

variable [DecidableEq κ]

/-- A move that its client cannot make changes nothing. -/
def step (state : State κ) : Move κ → State κ
  | .begin c request =>
    match state.clients c with
    | ⟨_, some _⟩ => state
    | ⟨guard, none⟩ =>
      { state with clients := Function.update state.clients c ⟨guard, request.start guard⟩ }
  | .access c =>
    match state.clients c with
    | ⟨_, none⟩ => state
    | ⟨guard, some stage⟩ =>
      match stage.access guard state.version with
      | (.next stage, guard, version) =>
        { state with version, clients := Function.update state.clients c ⟨guard, some stage⟩ }
      | (.returned reply, guard, version) =>
        ⟨version, Function.update state.clients c ⟨guard, none⟩, state.replies ++ [(c, reply)]⟩

def run (state : State κ) (schedule : List (Move κ)) : State κ := schedule.foldl step state

end State

end Contention

end FanoutIndex
