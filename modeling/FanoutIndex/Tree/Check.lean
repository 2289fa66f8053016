import FanoutIndex.Tree.Walk

/-!
# The check

A tree is sound if in every node the occupied slots come first, their keys increase, every key lies
strictly between the bounds that the links above it imply, and a child hangs only where a search can
reach it. `Tree.check` walks the tree with these bounds and reports the first fault that it meets: a
node is tested before what is below it, and its children are walked from the last link to the first.
-/

namespace FanoutIndex

/-- How a tree can be unsound, with the depth of the node at fault. -/
inductive Violation where
  /-- An occupied slot follows a vacant one. -/
  | gap (depth slot : Nat)
  /-- A key does not exceed the key before it. -/
  | unordered (depth slot : Nat)
  /-- A key lies outside the bounds that the links above imply. -/
  | outOfRange (depth slot : Nat)
  /-- A child hangs where no search can reach it. -/
  | misplacedChild (depth link : Nat)
  deriving DecidableEq, Repr

namespace Violation

def message : Violation → String
  | gap depth slot =>
    "occupied slot " ++ toString slot ++ " follows a vacant slot (depth " ++ toString depth ++ ")"
  | unordered depth slot =>
    "key in slot " ++ toString slot ++ " does not exceed its predecessor (depth "
      ++ toString depth ++ ")"
  | outOfRange depth slot =>
    "key in slot " ++ toString slot ++ " is outside the node's range (depth "
      ++ toString depth ++ ")"
  | misplacedChild depth link =>
    "child under unreachable link " ++ toString link ++ " (depth " ++ toString depth ++ ")"

def depth : Violation → Nat
  | gap depth _ | unordered depth _ | outOfRange depth _ | misplacedChild depth _ => depth

def position : Violation → Nat
  | gap _ slot | unordered _ slot | outOfRange _ slot => slot
  | misplacedChild _ link => link

end Violation

/-- The keys strictly between two bounds, either of which may be missing. -/
structure Bounds (n : Nat) where
  lower : Option (Key n)
  upper : Option (Key n)

namespace Bounds

variable {n : Nat}

def all : Bounds n := ⟨none, none⟩

def contains (bounds : Bounds n) (key : Key n) : Bool :=
  bounds.lower.all (fun lower => compare lower key == .lt) &&
    bounds.upper.all (fun upper => compare key upper == .lt)

end Bounds

/-- A node to visit, with the bounds of its keys and its depth. -/
structure Visit (n : Nat) where
  node : Nat
  bounds : Bounds n
  depth : Nat

namespace Node

variable {w n : Nat} {V : Type} (node : Node w n V)

/-- The first occupied slot after a vacant one. -/
def gap? : Option (Fin w) :=
  ((List.finRange w).drop node.occupied).find? node.isOccupied

/-- The first index, counted from `slot`, whose key does not exceed the key before it. -/
def unorderedFrom (slot : Nat) : List (Key n) → Option Nat
  | a :: b :: rest => if compare a b == .lt then unorderedFrom (slot + 1) (b :: rest) else some slot
  | _ => none

def leadingKeys : List (Key n) := node.keysAt ((List.finRange w).take node.occupied)

/-- A link that a search may take: an occupied slot is to its right, or every slot is occupied. -/
def isReachable (link : Fin (w + 1)) : Bool :=
  if link.val = w then node.occupied == w else decide (link.val < node.occupied)

/-- The first child that no search reaches. -/
def misplaced? : Option (Fin (w + 1)) :=
  (node.children.find? fun entry => !node.isReachable entry.1).map (·.1)

/-- What is wrong with a node within its bounds, tested in this order. -/
def violation? (bounds : Bounds n) (depth : Nat) : Option Violation :=
  match node.gap? with
  | some slot => some (.gap depth slot)
  | none =>
    match unorderedFrom 1 node.leadingKeys with
    | some slot => some (.unordered depth slot)
    | none =>
      match node.leadingKeys.findIdx? fun key => !bounds.contains key with
      | some slot => some (.outOfRange depth slot)
      | none => node.misplaced?.map fun link => .misplacedChild depth link

/-- A key of a node by its index among the keys. -/
def leadingKey (index : Nat) : Except Fault (Key n) :=
  match node.leadingKeys[index]? with
  | some key => .ok key
  | none => .error (.indexOutOfBounds node.leadingKeys.length index)

/-- The bounds of the keys under a link. -/
def boundsUnder (bounds : Bounds n) (link : Fin (w + 1)) : Except Fault (Bounds n) := do
  let lower ← if link.val = 0 then pure bounds.lower else some <$> node.leadingKey (link - 1)
  let upper ← if link.val = w then pure bounds.upper else some <$> node.leadingKey link
  pure ⟨lower, upper⟩

end Node

namespace Tree

variable {w n : Nat} {V : Type} (tree : Tree w n V)

def visitChild (visit : Visit n) (entry : Fin (w + 1) × Nat) : Except Fault (Visit n) := do
  let bounds ← (tree.node visit.node).boundsUnder visit.bounds entry.1
  pure ⟨entry.2, bounds, visit.depth + 1⟩

def visitEach (visit : Visit n) : List (Fin (w + 1) × Nat) → Except Fault (List (Visit n))
  | [] => pure []
  | entry :: rest => do
    let first ← tree.visitChild visit entry
    let others ← visitEach visit rest
    pure (first :: others)

theorem visitEach_nodes {visit : Visit n} {entries : List (Fin (w + 1) × Nat)}
    {visits : List (Visit n)} (h : tree.visitEach visit entries = .ok visits) :
    visits.map (·.node) = entries.map (·.2) := by
  induction entries generalizing visits with
  | nil =>
    simp only [visitEach, pure, Except.pure, Except.ok.injEq] at h
    subst h; rfl
  | cons entry rest ih =>
    simp only [visitEach, bind, Except.bind] at h
    split at h
    · simp at h
    · next first hf =>
      split at h
      · simp at h
      · next others ho =>
        simp only [pure, Except.pure, Except.ok.injEq] at h
        subst h
        have node : first.node = entry.2 := by
          simp only [visitChild, bind, Except.bind] at hf
          split at hf
          · simp at hf
          · simp only [pure, Except.pure, Except.ok.injEq] at hf
            subst hf; rfl
        simp [ih ho, node]

/-- Tests the nodes on a stack and everything below them. -/
def checkFrom (stack : List (Visit n)) : Except Fault (Option Violation) :=
  match stack with
  | [] => .ok none
  | visit :: rest =>
    match (tree.node visit.node).violation? visit.bounds visit.depth with
    | some violation => .ok (some violation)
    | none =>
      match _walked : tree.visitEach visit (tree.children visit.node) with
      | .error fault => .error fault
      | .ok visits => checkFrom (visits.reverse ++ rest)
  termination_by tree.stackWeight (stack.map (·.node))
  decreasing_by
    have lt := tree.stackWeight_children_lt visit.node
    have e : ((visits.reverse ++ rest).map (·.node))
        = ((tree.children visit.node).map (·.2)).reverse ++ rest.map (·.node) := by
      rw [List.map_append, List.map_reverse, tree.visitEach_nodes _walked]
    rw [e]
    simp only [stackWeight_append, stackWeight_reverse, List.map_cons, stackWeight_cons]
    omega

/-- The first violation in the tree, if there is one. -/
def check : Except Fault (Option Violation) := tree.checkFrom [⟨root, .all, 1⟩]

end Tree

end FanoutIndex
