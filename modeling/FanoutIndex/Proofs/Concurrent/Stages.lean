import FanoutIndex.Concurrent.System
import FanoutIndex.Proofs.Concurrent.Advance

/-!
# What a stage knows

At every stage a client knows something of the node that it is at. Without the lock it knows what
its token vouches for, with the lock it knows the node as it is. Steps of other clients leave it
that knowledge.
-/

namespace FanoutIndex

variable {w n : Nat} {V : Type}

namespace Request

def value? : Request n V → Option V
  | put _ value => some value
  | get _ => none

end Request

namespace Stage

def node : Stage w n V → Nat
  | takeToken i | readSlot i _ _ | readWord i _ _ _ | readLink i _ _ | validate i _ _
  | readValue i _ | recheck i _ _ | readVersion i _ _ | swapVersion i _ _ _ | confirm i _ _
  | readRetreat i | storeRetreat i _ | readMarkFill i _ | storeMarkFill i _ _
  | readMarkAttach i _ _ | storeMarkAttach i _ _ _ | storeWord i _ _ _ _ | swapValue i _ _ _
  | readChild i _ _ | storeChild i _ _ | countNode i | countEntry i | readUnlock i
  | storeUnlock i _ => i

def isHolding : Stage w n V → Bool
  | takeToken _ | readSlot _ _ _ | readWord _ _ _ _ | readLink _ _ _ | validate _ _ _
  | readValue _ _ | recheck _ _ _ | readVersion _ _ _ | swapVersion _ _ _ _ => false
  | _ => true

def child? : Stage w n V → Option Nat
  | readMarkAttach _ _ child | storeMarkAttach _ _ child _ | readChild _ _ child
  | storeChild _ _ child => some child
  | _ => none

/-- The request is one that has this stage. -/
def Fits (request : Request n V) : Stage w n V → Prop
  | takeToken _ | readSlot _ _ _ | readWord _ _ _ _ | readLink _ _ _ | validate _ _ _ => True
  | readValue _ _ => request.value? = none
  | storeWord _ _ _ _ value | swapValue _ _ _ value => request.value? = some value
  | _ => request.value?.isSome = true

/-- The place of an entry to write, in a vacant slot or in its own. -/
def entryPlace (isNew : Bool) (slot : Fin w) : Place w := if isNew then .fill slot else .update slot

/-- What the client knows of its node. -/
def Sees (request : Request n V) (node : Node w n V) : Stage w n V → Prop
  | takeToken _ => True
  | readSlot _ token slot => node.Vouches token (·.Precedes request.key slot)
  | readWord _ token slot index => node.Vouches token fun f => f.Precedes request.key slot ∧
      ∃ k, f.key slot = some k ∧ request.key.AgreesBelow k index
  | readLink _ token link => node.Vouches token (·.LeadsTo request.key link)
  | validate _ token route => node.Vouches token (·.Routes request.key route)
  | readValue _ slot => node.face.Routes request.key (.found slot)
  | recheck _ token place | readVersion _ token place =>
    node.Vouches token (·.Routes request.key place.route)
  | swapVersion _ token place expected =>
    node.Vouches token (·.Routes request.key place.route) ∧ expected.isBusy = false
  | confirm _ token place =>
    node.version.IsHeld false ∧ node.Vouches token (·.Routes request.key place.route)
  | readRetreat _ => node.version.IsHeld false
  | storeRetreat _ unlocked => node.version.IsHeld false ∧ node.version.unlock = .ok unlocked
  | readMarkFill _ slot =>
    node.version.IsHeld false ∧ node.face.Routes request.key (.vacant slot)
  | storeMarkFill _ slot marked =>
    node.version.IsHeld false ∧ node.face.Routes request.key (.vacant slot) ∧
      node.version.markInsert = .ok marked
  | readMarkAttach _ link _ =>
    node.version.IsHeld false ∧ node.face.Routes request.key (.descend link none)
  | storeMarkAttach _ link _ marked =>
    node.version.IsHeld false ∧ node.face.Routes request.key (.descend link none) ∧
      node.version.markInsert = .ok marked
  | storeWord _ slot isNew index _ =>
    node.version.IsHeld isNew ∧ node.face.Routes request.key (entryPlace isNew slot).route ∧
      (node.keys.get slot).AgreesBelow request.key index
  | swapValue _ slot isNew _ =>
    node.version.IsHeld isNew ∧ node.face.Routes request.key (entryPlace isNew slot).route ∧
      node.keys.get slot = request.key
  | readChild _ link _ | storeChild _ link _ =>
    node.version.IsHeld true ∧ node.face.Routes request.key (.descend link none)
  | countNode _ | countEntry _ =>
    node.version.IsHeld true ∧ node.version.changes + 1 ≤ node.face.size
  | readUnlock _ =>
    node.version.isLocked = true ∧
      (node.version.isInserting = true → node.version.changes + 1 ≤ node.face.size)
  | storeUnlock _ unlocked =>
    node.version.isLocked = true ∧
      (node.version.isInserting = true → node.version.changes + 1 ≤ node.face.size) ∧
      node.version.unlock = .ok unlocked

variable {tree : Tree w n V} {request : Request n V} {stage : Stage w n V}
  {before after : Node w n V}

theorem keyWidth_step : (stage.step request tree).2.keyWidth = tree.keyWidth := by
  cases stage with
  | confirm i token place =>
    rw [step]
    split
    · rfl
    · cases request with
      | get key => rfl
      | put key value => cases place <;> rfl
  | storeChild => exact Tree.keyWidth_setLink
  | takeToken | readSlot | recheck | readVersion | validate | readWord | swapVersion | readChild =>
    rw [step]
    split <;> rfl
  | _ => rfl

/-- Who does not hold the lock still knows what it knew after a step of another client. -/
theorem Sees.advances (h : stage.Sees request before) (free : stage.isHolding = false)
    (a : before.Advances after) : stage.Sees request after := by
  cases stage with
  | takeToken i => trivial
  | readSlot i token slot => exact Node.Vouches.advances h a
  | readWord i token slot index => exact Node.Vouches.advances h a
  | readLink i token link => exact Node.Vouches.advances h a
  | validate i token route => exact Node.Vouches.advances h a
  | readValue i slot => exact Face.Routes.found_grows h a.grows
  | recheck i token place => exact Node.Vouches.advances h a
  | readVersion i token place => exact Node.Vouches.advances h a
  | swapVersion i token place expected => exact ⟨h.1.advances a, h.2⟩
  | _ => cases free

theorem Sees.isLocked (h : stage.Sees request before) (holding : stage.isHolding = true) :
    before.version.isLocked = true := by
  cases stage with
  | takeToken | readSlot | readWord | readLink | validate | readValue | recheck | readVersion
  | swapVersion => cases holding
  | readRetreat => exact h.1
  | _ => first | exact h.1 | exact h.1.1

end Stage

namespace Tree

/-- No link leads to an older node, the layout is sound, and no node counts more changes than it
shows. -/
structure Wellformed (tree : Tree w n V) : Prop where
  size : 0 < tree.nodes.size
  sound : tree.layout.Sound
  counted : ∀ i, (tree.node i).version.changes ≤ (tree.node i).face.size

/-- What a client's step at a stage does to the tree. -/
structure Steps (before after : Tree w n V) (stage : Stage w n V) : Prop where
  size : before.nodes.size ≤ after.nodes.size
  advances : ∀ i < before.nodes.size, (before.node i).Advances (after.node i)
  frame : ∀ i < before.nodes.size, i ≠ stage.node → after.node i = before.node i
  kept : ∀ i < before.nodes.size, (stage.isHolding = true → stage.node ≠ i) →
    (before.node i).version.isLocked = true → after.node i = before.node i
  linked : ∀ i l c, (after.layout i).link l = some c →
    (before.layout i).link l = some c ∨ stage.child? = some c

variable {before after tree : Tree w n V} {stage : Stage w n V}

theorem Steps.refl (tree : Tree w n V) (stage : Stage w n V) : tree.Steps tree stage where
  size := Nat.le_refl _
  advances := fun _ _ => .refl _
  frame := fun _ _ _ => rfl
  kept := fun _ _ _ _ => rfl
  linked := fun _ _ _ h => .inl h

theorem Steps.of_nodes (same : after.nodes = before.nodes) : before.Steps after stage := by
  have hnode (i : Nat) : after.node i = before.node i := by rw [node, node, same]
  refine ⟨(congrArg Array.size same).ge, ?_, fun i _ _ => hnode i, fun i _ _ _ => hnode i, ?_⟩
  · intro i _
    rw [hnode]
    exact .refl _
  · intro i l c h
    rw [layout, hnode] at h
    exact .inl h

theorem Wellformed.of_nodes (wf : before.Wellformed) (same : after.nodes = before.nodes) :
    after.Wellformed := by
  have hnode (i : Nat) : after.node i = before.node i := by rw [node, node, same]
  have hlayout : after.layout = before.layout := by
    funext i
    rw [layout, layout, hnode]
  refine ⟨same ▸ wf.size, hlayout ▸ wf.sound, ?_⟩
  intro i
  rw [hnode]
  exact wf.counted i

theorem Steps.grows (h : before.Steps after stage) : before.layout.Grows after.layout := by
  intro i
  by_cases hi : i < before.nodes.size
  · exact (h.advances i hi).grows
  · rw [layout_of_ge _ (Nat.le_of_not_lt hi), Node.face_empty]
    exact Face.bare_grows _

end Tree

namespace Stage

/-- What a client relies on at a stage. -/
structure Holds (tree : Tree w n V) (request : Request n V) (stage : Stage w n V) : Prop where
  path : ∃ d, tree.layout.Path request.key stage.node d
  fits : stage.Fits request
  sees : stage.Sees request (tree.node stage.node)
  child : ∀ c, stage.child? = some c → stage.node < c ∧
    ∃ value, request.value? = some value ∧ tree.Spare c request.key value

variable {before after tree : Tree w n V} {request other : Request n V}
  {stage theirs : Stage w n V}

theorem Holds.lt_size (h : stage.Holds tree request) (size : 0 < tree.nodes.size) :
    stage.node < tree.nodes.size := by
  obtain ⟨d, path⟩ := h.path
  exact tree.lt_of_path size path

/-- Steps of other clients leave a client what it relies on. -/
theorem Holds.steps (h : theirs.Holds before other) (mine : stage.Holds before request)
    (size : 0 < before.nodes.size) (step : before.Steps after stage)
    (locks : theirs.isHolding = true → stage.isHolding = true → stage.node ≠ theirs.node)
    (children : ∀ c, theirs.child? = some c → stage.child? ≠ some c) :
    theirs.Holds after other where
  path := by
    obtain ⟨d, path⟩ := h.path
    exact ⟨d, path.grows step.grows⟩
  fits := h.fits
  sees := by
    have hlt := h.lt_size size
    cases hheld : theirs.isHolding with
    | false => exact h.sees.advances hheld (step.advances _ hlt)
    | true =>
      -- Nobody else changes a node while its lock is held.
      rw [step.kept _ hlt (locks hheld) (h.sees.isLocked hheld)]
      exact h.sees
  child := by
    intro c hc
    obtain ⟨younger, value, hvalue, spare⟩ := h.child c hc
    -- Who moved is at a node in use, and no link leads to the child.
    have hne : c ≠ stage.node := by
      rintro rfl
      obtain ⟨d, path⟩ := mine.path
      exact spare.not_reachable (Nat.zero_lt_of_lt younger) path.reachable
    refine ⟨younger, value, hvalue, spare.known.trans_le step.size, ?_, ?_⟩
    · rw [step.frame c spare.known hne]
      exact spare.entry
    · intro i l hl
      rcases step.linked i l c hl with hl | hl
      · exact spare.unlinked i l hl
      · exact children c hc hl

end Stage

end FanoutIndex
