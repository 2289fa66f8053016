import FanoutIndex.Key.Text
import FanoutIndex.Node.Basic

namespace FanoutIndex

open Text

namespace Rail

/-- Leads to a child that has siblings after it. -/
def branch : String := "├── "

/-- Leads to the last child. -/
def last : String := "└── "

/-- Passes by the descendants of a child that has siblings after it. -/
def pass : String := "│   "

/-- Stands before the descendants of the last child. -/
def blank : String := "    "

end Rail

/-- A node to print. -/
structure Line where
  node : Nat
  /-- The rails of the nodes above. -/
  rails : String
  /-- The node hangs under a link that is not the last. -/
  isBranch : Bool
  /-- The link that it hangs under. -/
  link : Nat

namespace Node

variable {w n : Nat} {V : Type}

/-- One slot of a node as it is printed. -/
def printSlot [Printed V] (node : Node w n V) (slot : Fin w) : String :=
  match node.key? slot, node.values.get slot with
  | some key, some value =>
    toString slot.val ++ ":(" ++ key.printable ++ ":" ++ Printed.text value ++ "); "
  | _, _ => toString slot.val ++ ":(null:null); "

def described (node : Node w n V) : Described :=
  .record "Node"
    [("version", .ofNat node.version.word.toNat),
      ("keys", .row ((node.keysAt (List.finRange w)).map Key.described)),
      ("rightmost", .ofBool node.rightmost.isSome)]
    true

end Node

end FanoutIndex
