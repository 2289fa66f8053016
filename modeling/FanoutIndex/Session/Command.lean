import FanoutIndex.Access.Index

namespace FanoutIndex

/-- A way down from the root, one link for each step. -/
abbrev Path := List Nat

/-- Numbered entries: number `m` has the last bytes of the word `m * step` as its key and its
decimal text as its value. All arithmetic is on 64-bit words. -/
structure Series where
  start : UInt64
  count : Nat
  step : UInt64
  /-- Bytes of each key. -/
  bytes : Nat
  deriving DecidableEq, Repr

namespace Series

def numbers (series : Series) : List UInt64 :=
  (List.range series.count).map fun i => series.start + i.toUInt64

def key (series : Series) (m : UInt64) : Bytes :=
  (unpackWord (m * series.step)).drop (bytesPerWord - series.bytes)

def value (m : UInt64) : String := toString m.toNat

def entries (series : Series) : List (Bytes × String) :=
  series.numbers.map fun m => (series.key m, value m)

end Series

inductive Command where
  | put (key : Bytes) (value : String) (guard : GuardOrigin)
  /-- Puts one value under each key in turn, up to the first fault. -/
  | putEach (keys : List Bytes) (value : String) (guard : GuardOrigin)
  | putSeries (series : Series) (isReversed : Bool)
  | get (key : Bytes) (guard : GuardOrigin)
  | getSeries (series : Series)
  | depthOf (key : Bytes)
  | depthOfSeries (series : Series)
  | info
  | stats
  | check
  | print
  /-- Prints into a writer of bounded room. -/
  | printBounded (room : Nat)
  /-- Searches as a reader, for a key of any width that the key type holds. -/
  | find (key : Bytes)
  /-- Searches as a writer and runs commands under the lock of the node that it ends at. -/
  | lock (key : Bytes) (body : List Command)
  /-- Tries to lock the node at the end of a path and runs commands under its lock. -/
  | lockNode (path : Path) (body : List Command)
  | mark
  /-- Asks the lock that is held about a token, and whether it is the lock of a node. -/
  | askLock (token : Token) (path : Option Path)
  /-- Writes an entry under the lock that is held, to its node or to another. -/
  | assign (slot : Nat) (key : Bytes) (value : String) (path : Option Path)
  /-- Hangs a new node under the lock that is held, with one entry or empty. -/
  | hang (link : Nat) (entry : Option (Bytes × String)) (path : Option Path)
  | node (path : Path)
  | isOccupied (path : Path) (slot : Nat)
  | keyAt (path : Path) (slot : Nat)
  | childAt (path : Path) (link : Nat)
  | valueAt (path : Path) (slot : Nat)
  | route (path : Path) (key : Bytes)
  /-- Whether two keys lead to the same place in a node. -/
  | routesAgree (path : Path) (a b : Bytes)
  | hasChanged (path : Path) (token : Token)

/-- A command with the script of what happens while it runs. -/
structure Step where
  command : Command
  script : List (Event String)

end FanoutIndex
