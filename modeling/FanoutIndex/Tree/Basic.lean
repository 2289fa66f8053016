import FanoutIndex.Config
import FanoutIndex.Node.Basic

/-!
# Trees

A tree is a row of nodes in the order of their creation, the root first. Nodes are never moved or
removed, and a link, once set, leads from a node to a younger one; that order is part of the type,
so every walk down the links ends. A node that no link leads to is not part of the structure that
searches see.
-/

namespace FanoutIndex

/-- Every link leads to a younger node. -/
def LinksForward {w n : Nat} {V : Type} (nodes : Array (Node w n V)) : Prop :=
  ∀ (i : Nat) (h : i < nodes.size) (link : Fin (w + 1)) (child : Nat),
    nodes[i].links.get link = some child → i < child ∧ child < nodes.size

/-- An index of nodes with `w` slots, over keys of `n` words. -/
structure Tree (w n : Nat) (V : Type) where
  nodes : Array (Node w n V)
  /-- Bytes that a key may have. -/
  keyWidth : Nat
  /-- Nodes linked into the tree by puts, and the root. -/
  nodeCount : Nat
  /-- Distinct keys that were put. -/
  len : Nat
  linksForward : LinksForward nodes

def root : Nat := 0

/-- Slots of a node where nothing else is asked for. -/
def defaultWidth : Nat := 3

def indexName : String := "fourtree"

namespace Tree

variable {w n : Nat} {V : Type}

def empty (keyWidth : Nat) : Tree w n V where
  nodes := #[Node.empty]
  keyWidth := keyWidth
  nodeCount := 1
  len := 0
  linksForward := by
    intro i h link child e
    have hi : i = 0 := by simpa using h
    subst hi
    have e' : (Node.empty : Node w n V).links.get link = some child := e
    rw [Node.links_empty] at e'
    exact absurd e' (by simp)

/-- A tree without entries, built as configured. -/
def ofConfig (config : Config) : Except ConfigError (Tree w n V) :=
  (config.resolveKeyWidth (Key.capacity n)).map empty

instance : Inhabited (Tree w n V) := ⟨empty (Key.capacity n)⟩

/-- The node of a number; there is nothing in a node that was never created. -/
def node (tree : Tree w n V) (i : Nat) : Node w n V := tree.nodes.getD i .empty

theorem node_of_lt (tree : Tree w n V) {i : Nat} (h : i < tree.nodes.size) :
    tree.node i = tree.nodes[i] := by
  simp [node, h]

theorem node_of_ge (tree : Tree w n V) {i : Nat} (h : tree.nodes.size ≤ i) :
    tree.node i = .empty := by
  simp [node, Array.getD, Nat.not_lt.2 h]

theorem lt_of_link (tree : Tree w n V) {i child : Nat} {link : Fin (w + 1)}
    (h : (tree.node i).links.get link = some child) : i < child ∧ child < tree.nodes.size := by
  by_cases hi : i < tree.nodes.size
  · rw [tree.node_of_lt hi] at h
    exact tree.linksForward i hi link child h
  · rw [tree.node_of_ge (Nat.le_of_not_lt hi), Node.links_empty] at h
    exact absurd h (by simp)

theorem linksForward_modify {nodes : Array (Node w n V)} (h : LinksForward nodes) (i : Nat)
    {change : Node w n V → Node w n V} (keeps : ∀ node, (change node).links = node.links) :
    LinksForward (nodes.modify i change) := by
  intro j hj link child e
  rw [Array.size_modify] at hj ⊢
  rw [Array.getElem_modify] at e
  split at e
  · simp only [keeps] at e; exact h j hj link child e
  · exact h j hj link child e

/-- Changes a node in anything but its links. -/
def modifyNode (tree : Tree w n V) (i : Nat) (change : Node w n V → Node w n V)
    (keeps : ∀ node, (change node).links = node.links) : Tree w n V :=
  match tree with
  | ⟨nodes, keyWidth, nodeCount, len, linksForward⟩ =>
    ⟨nodes.modify i change, keyWidth, nodeCount, len, linksForward_modify linksForward i keeps⟩

def setVersion (tree : Tree w n V) (i : Nat) (version : Version) : Tree w n V :=
  tree.modifyNode i (·.setVersion version) fun _ => rfl

def assign (tree : Tree w n V) (i : Nat) (slot : Fin w) (key : Key n) (value : V) :
    Tree w n V :=
  tree.modifyNode i (·.assign slot key value) fun _ => rfl

def setWord (tree : Tree w n V) (i : Nat) (slot : Fin w) (index : Fin n) (word : UInt64) :
    Tree w n V :=
  tree.modifyNode i (·.setWord slot index word) fun _ => rfl

def setValue (tree : Tree w n V) (i : Nat) (slot : Fin w) (value : V) : Tree w n V :=
  tree.modifyNode i (·.setValue slot value) fun _ => rfl

theorem linksForward_setLink {nodes : Array (Node w n V)} (h : LinksForward nodes) {i : Nat}
    {link : Fin (w + 1)} {child : Nat} (younger : i < child ∧ child < nodes.size) :
    LinksForward (nodes.modify i (·.setLink link child)) := by
  intro j hj l c e
  rw [Array.size_modify] at hj ⊢
  rw [Array.getElem_modify] at e
  split at e
  · next hij =>
    subst hij
    simp only [Node.setLink, get_eq_getElem, Vector.getElem_set] at e
    split at e
    · simp only [Option.some.injEq] at e; subst e; exact younger
    · exact h i hj l c e
  · exact h j hj l c e

/-- Hangs a younger node under a link of a node; any other node is not hung. -/
def setLink (tree : Tree w n V) (i : Nat) (link : Fin (w + 1)) (child : Nat) :
    Tree w n V :=
  match tree with
  | ⟨nodes, keyWidth, nodeCount, len, linksForward⟩ =>
    if younger : i < child ∧ child < nodes.size then
      ⟨nodes.modify i (·.setLink link child), keyWidth, nodeCount, len,
        linksForward_setLink linksForward younger⟩
    else ⟨nodes, keyWidth, nodeCount, len, linksForward⟩

theorem linksForward_push {nodes : Array (Node w n V)} (h : LinksForward nodes)
    {node : Node w n V} (bare : ∀ link : Fin (w + 1), node.links.get link = none) :
    LinksForward (nodes.push node) := by
  intro j hj link child e
  rw [Array.getElem_push] at e
  rw [Array.size_push]
  split at e
  · next hlt =>
    have younger := h j hlt link child e
    exact ⟨younger.1, Nat.lt_succ_of_lt younger.2⟩
  · rw [bare] at e; exact absurd e (by simp)

/-- Creates a node with no children, which no link leads to yet. -/
def addNode (tree : Tree w n V) (node : Node w n V)
    (bare : ∀ link : Fin (w + 1), node.links.get link = none) : Tree w n V :=
  match tree with
  | ⟨nodes, keyWidth, nodeCount, len, linksForward⟩ =>
    ⟨nodes.push node, keyWidth, nodeCount, len, linksForward_push linksForward bare⟩

def isEmpty (tree : Tree w n V) : Bool := tree.len == 0

def countEntry (tree : Tree w n V) : Tree w n V := { tree with len := tree.len + 1 }

/-- Counts a node that was linked into the tree. -/
def countNode (tree : Tree w n V) : Tree w n V := { tree with nodeCount := tree.nodeCount + 1 }

/-- The children of a node with their links, in the order of the links. -/
def children (tree : Tree w n V) (i : Nat) : List (Fin (w + 1) × Nat) :=
  (tree.node i).children

theorem lt_of_mem_children (tree : Tree w n V) {i : Nat} {entry : Fin (w + 1) × Nat}
    (h : entry ∈ tree.children i) : i < entry.2 ∧ entry.2 < tree.nodes.size :=
  tree.lt_of_link (Node.mem_children_iff.1 h)

/-- Encodes a key that has the configured width at most. -/
def encode (tree : Tree w n V) (key : Bytes) : Except Fault (Key n) :=
  if key.length ≤ tree.keyWidth then Key.ofBytes n key
  else .error (.keyBeyondWidth key.length tree.keyWidth)

end Tree

end FanoutIndex
