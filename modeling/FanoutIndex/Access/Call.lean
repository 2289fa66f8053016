import FanoutIndex.Key.Basic
import FanoutIndex.Text.Described
import FanoutIndex.Version.Basic

/-!
# Calls

The trace of an operation is the list of calls that it made on the versions of nodes, with the marks
that the events of its script left. Each has a line of text: the node that the call was made on and
what it answered, or the word of the version after it.
-/

namespace FanoutIndex

inductive Call (V : Type) where
  | stable (node : Nat) (token : Token)
  | hasChanged (node : Nat) (token : Token) (answer : Bool)
  | hasChangedLocked (node : Nat) (token : Token) (answer : Bool)
  | tryLock (node : Nat) (answer : Bool)
  | markInsert (node : Nat) (version : Version)
  | unlock (node : Nat) (version : Version)
  /-- Another client's structural change; the answer is whether it got the lock. -/
  | bump (node : Nat) (answer : Bool)
  /-- Another client's put. -/
  | beginPut (key : Bytes) (value : V)
  | endPut (key : Bytes) (value : V)
  /-- Another client's look-up. -/
  | beginGet (key : Bytes)
  | endGet (key : Bytes) (value : Option V)
  deriving DecidableEq, Repr

namespace Call

variable {V : Type} [Printed V]

private def nameAt (name : String) (node : Nat) : String := name ++ "#" ++ toString node

def text : Call V → String
  | stable node token => nameAt "stable" node ++ "=" ++ toString token
  | hasChanged node token answer =>
    nameAt "has_changed" node ++ "(" ++ toString token ++ ")=" ++ toString answer
  | hasChangedLocked node token answer =>
    nameAt "has_changed_locked" node ++ "(" ++ toString token ++ ")=" ++ toString answer
  | tryLock node answer => nameAt "try_lock" node ++ "=" ++ toString answer
  | markInsert node version => nameAt "mark_insert" node ++ "=" ++ toString version.word
  | unlock node version => nameAt "unlock" node ++ "=" ++ toString version.word
  | bump node answer => nameAt "bump" node ++ "=" ++ toString answer
  | beginPut _ _ | beginGet _ => "begin"
  | endPut _ _ => "end put"
  | endGet _ value => "end get " ++ (Text.Described.ofOption (value.map Printed.text)).line

end Call

end FanoutIndex
