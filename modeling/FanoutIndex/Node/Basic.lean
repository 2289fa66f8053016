import FanoutIndex.Key.Order
import FanoutIndex.Version.Basic

/-!
# Nodes

A node has `w` slots for entries and `w + 1` links to children. The entries of a well-formed node
fill its slots from the left in increasing order of keys; link `i` leads to the keys between those
of slots `i - 1` and `i`, and the last link to the keys above all. `Node.route` says where a key
leads in a node, for nodes of any content. Nodes refer to each other by number: they are numbered as
they are created, and the root is number 0.
-/

namespace FanoutIndex

/-- A slot holds an entry if it holds a value; the key of a vacant slot means nothing. -/
structure Node (w n : Nat) (V : Type) where
  version : Version
  keys : Vector (Key n) w
  values : Vector (Option V) w
  /-- The number of the child under each link. -/
  links : Vector (Option Nat) (w + 1)

/-- Where a key leads inside one node. -/
inductive Route (w : Nat) where
  /-- The key is in this slot. -/
  | found (slot : Fin w)
  /-- The key is not in this node and would take this vacant slot. -/
  | vacant (slot : Fin w)
  /-- The key belongs under this link, where there may be no child yet. -/
  | descend (link : Fin (w + 1)) (child : Option Nat)
  deriving DecidableEq, Repr

namespace Node

variable {w n : Nat} {V : Type}

def empty : Node w n V where
  version := .new
  keys := Vector.replicate w (Key.zero n)
  values := Vector.replicate w none
  links := Vector.replicate (w + 1) none

instance : Inhabited (Node w n V) := ⟨empty⟩

/-- A node with one entry, in its first slot. -/
def ofEntry (key : Key n) (value : V) : Node w n V :=
  { (empty : Node w n V) with
    keys := (empty : Node w n V).keys.setIfInBounds 0 key
    values := (empty : Node w n V).values.setIfInBounds 0 (some value) }

def isOccupied (node : Node w n V) (slot : Fin w) : Bool := (node.values.get slot).isSome

/-- Occupied slots before the first vacant one. -/
def occupied (node : Node w n V) : Nat := node.values.toList.findIdx Option.isNone

def key? (node : Node w n V) (slot : Fin w) : Option (Key n) :=
  if node.isOccupied slot then some (node.keys.get slot) else none

/-- The keys of the given slots, vacant ones left out. -/
def keysAt (node : Node w n V) (slots : List (Fin w)) : List (Key n) := slots.filterMap node.key?

/-- The link above every key of a full node. -/
def rightmost (node : Node w n V) : Option Nat := node.links.get (Fin.last w)

/-- The children with their links, in the order of the links. -/
def children (node : Node w n V) : List (Fin (w + 1) × Nat) :=
  (List.finRange (w + 1)).filterMap fun link => (node.links.get link).map fun child => (link, child)

/-- Compares a key with the key in a slot, fetching no more words than it needs. -/
def compareSlot (node : Node w n V) (key : Key n) (slot : Fin w) : Ordering :=
  Id.run (key.compareWith fun i => pure ((node.keys.get slot).words.get i))

/-- Scans the given slots for the place of a key. -/
def routeAlong (node : Node w n V) (key : Key n) : List (Fin w) → Route w
  | [] => .descend (Fin.last w) node.rightmost
  | slot :: rest =>
    if node.isOccupied slot then
      match node.compareSlot key slot with
      | .eq => .found slot
      | .lt => .descend slot.castSucc (node.links.get slot.castSucc)
      | .gt => node.routeAlong key rest
    else .vacant slot

/-- Where a key leads: the first slot that is vacant or whose key is not below it decides. -/
def route (node : Node w n V) (key : Key n) : Route w := node.routeAlong key (List.finRange w)

def assign (node : Node w n V) (slot : Fin w) (key : Key n) (value : V) : Node w n V :=
  { node with keys := node.keys.set slot key, values := node.values.set slot (some value) }

def setWord (node : Node w n V) (slot : Fin w) (i : Fin n) (word : UInt64) : Node w n V :=
  { node with keys := node.keys.set slot ⟨(node.keys.get slot).words.set i word⟩ }

def setValue (node : Node w n V) (slot : Fin w) (value : V) : Node w n V :=
  { node with values := node.values.set slot (some value) }

def setLink (node : Node w n V) (link : Fin (w + 1)) (child : Nat) : Node w n V :=
  { node with links := node.links.set link (some child) }

def setVersion (node : Node w n V) (version : Version) : Node w n V :=
  { node with version := version }

def isOccupiedAt (node : Node w n V) (slot : Nat) : Except Fault Bool :=
  if h : slot < w then .ok (node.isOccupied ⟨slot, h⟩) else .error (.indexOutOfBounds w slot)

def keyAt (node : Node w n V) (slot : Nat) : Except Fault (Option (Key n)) :=
  if h : slot < w then .ok (node.key? ⟨slot, h⟩) else .error (.indexOutOfBounds w slot)

def valueAt (node : Node w n V) (slot : Nat) : Except Fault (Option V) :=
  if h : slot < w then .ok node.values[slot] else .error (.indexOutOfBounds w slot)

def childAt (node : Node w n V) (link : Nat) : Except Fault (Option Nat) :=
  if h : link < w + 1 then .ok node.links[link] else .error (.indexOutOfBounds w link)

theorem mem_children_iff {node : Node w n V} {link : Fin (w + 1)} {child : Nat} :
    (link, child) ∈ node.children ↔ node.links.get link = some child := by
  simp only [children, List.mem_filterMap, Option.map_eq_some_iff, Prod.mk.injEq]
  constructor
  · rintro ⟨l, -, c, h, rfl, rfl⟩; exact h
  · intro h; exact ⟨link, List.mem_finRange link, child, h, rfl, rfl⟩

theorem length_children_le (node : Node w n V) : node.children.length ≤ w + 1 := by
  have h := List.length_filterMap_le
    (fun link => (node.links.get link).map fun child => (link, child)) (List.finRange (w + 1))
  simpa [children] using h

@[simp]
theorem links_empty (link : Fin (w + 1)) : (empty : Node w n V).links.get link = none := by
  simp [empty, get_eq_getElem]

@[simp]
theorem links_ofEntry (key : Key n) (value : V) (link : Fin (w + 1)) :
    (ofEntry key value : Node w n V).links.get link = none := by
  simp [ofEntry, empty, get_eq_getElem]

theorem occupied_le (node : Node w n V) : node.occupied ≤ w := by
  have h : node.values.toList.findIdx Option.isNone ≤ node.values.toList.length :=
    List.findIdx_le_length
  simpa [occupied] using h

end Node

end FanoutIndex
