import FanoutIndex.Version.Basic

/-!
# Guards

A guard stands for a lock that is held: it exists from the moment a lock is taken until it is
dropped, and dropping it unlocks, also when its owner is thrown out of a critical section. Here a
family of versions is worked on through numbered guards, with the raw operations beside them.
-/

namespace FanoutIndex

/-- Versions together with the guards that are held on them. -/
structure GuardedVersions where
  versions : Array Version
  /-- The last token taken of each version. -/
  tokens : Array Token
  /-- The number of each guard that is held and the version that it locks. -/
  guards : List (Nat × Nat)

/-- One operation; `v` is a version and `g` the number of a guard. A token that is not given is the
last one taken of `v`. -/
inductive GuardAction where
  | takeToken (v : Nat)
  /-- Another client waits for a token while the lock is given back. -/
  | awaitToken (v : Nat)
  | hasChanged (v : Nat) (token : Option Token)
  | hasChangedLocked (v : Nat) (token : Option Token)
  | tryLock (v : Nat)
  | unlock (v : Nat)
  | markInsert (v : Nat)
  /-- Locks `v` and keeps the lock as guard `g`. -/
  | acquire (g v : Nat)
  /-- A whole critical section, which its owner may mark and may abandon. -/
  | criticalSection (v : Nat) (mark abandon : Bool)
  | guardMark (g : Nat)
  | guardHasChanged (g v : Nat) (token : Option Token)
  | guardGuards (g v : Nat)
  | guardDescribe (g : Nat)
  | guardDrop (g : Nat)
  | describe (v : Nat)
  | describeBlock (v : Nat)
  deriving DecidableEq, Repr

inductive GuardAnswer where
  | done
  | truth (value : Bool)
  | token (value : Token)
  | text (value : String)
  | busy
  | notLocked
  | noGuard
  | fault (cause : Fault)
  deriving DecidableEq, Repr

namespace GuardedVersions

/-- Versions with the given words, none of them guarded. -/
def ofWords (words : List UInt32) : GuardedVersions where
  versions := (words.map Version.mk).toArray
  tokens := (words.map fun _ => 0).toArray
  guards := []

variable (s : GuardedVersions)

def version (v : Nat) : Version := s.versions.getD v .new

def setVersion (v : Nat) (version : Version) : GuardedVersions :=
  { s with versions := s.versions.setIfInBounds v version }

/-- The token to compare with. -/
def tokenOr (v : Nat) (token : Option Token) : Token := token.getD (s.tokens.getD v 0)

def guarded? (g : Nat) : Option Nat := s.guards.lookup g

def forget (g : Nat) : GuardedVersions :=
  { s with guards := s.guards.filter fun held => held.1 != g }

/-- Replaces a version by what an operation on it gives, unless that is a fault. -/
def update (v : Nat) (result : Except Fault Version) : GuardAnswer × GuardedVersions :=
  match result with
  | .ok version => (.done, s.setVersion v version)
  | .error cause => (.fault cause, s)

def lock (v : Nat) : Bool × GuardedVersions :=
  match (s.version v).tryLock? with
  | some version => (true, s.setVersion v version)
  | none => (false, s)

/-- What a critical section does to a locked version until its guard is dropped. -/
def runSection (locked : Version) (mark : Bool) : Except Fault Version := do
  let inside ← if mark then locked.markInsert else pure locked
  inside.unlock

/-- A critical section from its lock to its unlock; an abandoned one unlocks too. -/
def criticalSection (v : Nat) (mark abandon : Bool) : GuardAnswer × GuardedVersions :=
  match (s.version v).tryLock? with
  | none => (.truth false, s)
  | some locked =>
    match runSection locked mark with
    | .error cause => (.fault cause, s.setVersion v locked)
    | .ok version =>
      (if abandon then .fault .sectionAbandoned else .truth true, s.setVersion v version)

/-- Drops a guard, which is gone even if its version cannot be unlocked. -/
def drop (g v : Nat) : GuardAnswer × GuardedVersions :=
  match (s.version v).unlock with
  | .ok version => (.truth true, (s.forget g).setVersion v version)
  | .error cause => (.fault cause, s.forget g)

def step : GuardAction → GuardAnswer × GuardedVersions
  | .takeToken v =>
    match (s.version v).stable? with
    | none => (.busy, s)
    | some token => (.token token, { s with tokens := s.tokens.setIfInBounds v token })
  | .awaitToken v =>
    match (s.version v).unlock with
    | .error _ => (.notLocked, s)
    | .ok version =>
      match version.stable? with
      | none => (.busy, s.setVersion v version)
      | some token => (.token token, s.setVersion v version)
  | .hasChanged v token => (.truth ((s.version v).hasChanged (s.tokenOr v token)), s)
  | .hasChangedLocked v token => (.truth ((s.version v).hasChangedLocked (s.tokenOr v token)), s)
  | .tryLock v =>
    let (locked, s) := s.lock v
    (.truth locked, s)
  | .unlock v => s.update v (s.version v).unlock
  | .markInsert v => s.update v (s.version v).markInsert
  | .acquire g v =>
    match s.lock v with
    | (true, s) => (.truth true, { s with guards := s.guards ++ [(g, v)] })
    | (false, s) => (.truth false, s)
  | .criticalSection v mark abandon => s.criticalSection v mark abandon
  | .guardMark g =>
    match s.guarded? g with
    | none => (.noGuard, s)
    | some v => s.update v (s.version v).markInsert
  | .guardHasChanged g v token =>
    match s.guarded? g with
    | none => (.noGuard, s)
    | some held => (.truth ((s.version held).hasChangedLocked (s.tokenOr v token)), s)
  | .guardGuards g v =>
    match s.guarded? g with
    | none => (.noGuard, s)
    | some held => (.truth (held == v), s)
  | .guardDescribe g =>
    match s.guarded? g with
    | none => (.noGuard, s)
    | some held => (.text (s.version held).describedLock.line, s)
  | .guardDrop g =>
    match s.guarded? g with
    | none => (.noGuard, s)
    | some held => s.drop g held
  | .describe v => (.text (s.version v).described.line, s)
  | .describeBlock v => (.text (s.version v).described.block, s)

def run : GuardedVersions → List GuardAction →
    List (GuardAnswer × GuardedVersions) × GuardedVersions
  | s, [] => ([], s)
  | s, action :: rest =>
    let (answer, s) := s.step action
    let (answers, last) := run s rest
    ((answer, s) :: answers, last)

def dropEach : GuardedVersions → List (Nat × Nat) → List GuardAnswer × GuardedVersions
  | s, [] => ([], s)
  | s, (g, v) :: rest =>
    let (answer, s) := s.drop g v
    let (answers, last) := dropEach s rest
    (answer :: answers, last)

/-- Drops every guard that is still held, in the order of their numbers. -/
def dropAll : List GuardAnswer × GuardedVersions :=
  s.dropEach (s.guards.mergeSort fun a b => a.1 ≤ b.1)

end GuardedVersions

end FanoutIndex
