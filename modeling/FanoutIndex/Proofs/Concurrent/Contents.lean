import FanoutIndex.Proofs.Concurrent.Writes

/-!
# What accesses do to the contents

A put has two accesses that may change what the tree holds, of which it makes one: the exchange of
the value in a slot, and the store of a link. All others leave the entries of the nodes in use as
they are. The counters follow the contents later.
-/

namespace FanoutIndex

variable {w n : Nat} {V : Type}

/-- How far a put is: it looks for its place, it has linked a node, its entry is there, or all of it
is counted. -/
inductive Phase where
  | searching
  | linked
  | written
  | settled
  deriving DecidableEq

namespace Phase

def nodes : Phase → Nat
  | linked => 1
  | _ => 0

def entries : Phase → Nat
  | linked => 1
  | written => 1
  | _ => 0

end Phase

namespace Stage

def phase : Stage w n V → Phase
  | countNode _ => .linked
  | countEntry _ => .written
  | readUnlock _ | storeUnlock _ _ => .settled
  | _ => .searching

def isWrite : Stage w n V → Bool
  | swapValue _ _ _ _ | storeChild _ _ _ => true
  | _ => false

def effect? (request : Request n V) (stage : Stage w n V) : Option (Key n × V) :=
  if stage.isWrite then request.value?.map (request.key, ·) else none

variable {stage : Stage w n V} {request : Request n V}

theorem effect?_eq_some_iff {entry : Key n × V} : stage.effect? request = some entry ↔
    stage.isWrite = true ∧ request = .put entry.1 entry.2 := by
  obtain ⟨key, value⟩ := entry
  cases hwrite : stage.isWrite with
  | false => simp [effect?, hwrite]
  | true => cases request <;> simp [effect?, hwrite, Request.value?, Request.key]

theorem phase_of_isWrite (h : stage.isWrite = true) : stage.phase = .searching := by
  cases stage <;> first | rfl | cases h

theorem effect?_of_not_isWrite (h : stage.isWrite = false) : stage.effect? request = none := by
  simp [effect?, h]

@[simp]
theorem phase_scanSlot (i : Nat) (token : Token) (slot : Nat) :
    (scanSlot i token slot : Stage w n V).phase = .searching := by
  rw [scanSlot]
  split <;> rfl

@[simp]
theorem phase_scanWord (i : Nat) (token : Token) (slot : Fin w) (index : Nat) :
    (scanWord i token slot index : Stage w n V).phase = .searching := by
  rw [scanWord]
  split <;> rfl

@[simp]
theorem phase_writeWord (i : Nat) (slot : Fin w) (isNew : Bool) (value : V) (index : Nat) :
    (writeWord i slot isNew value index : Stage w n V).phase = .searching := by
  rw [writeWord]
  split <;> rfl

end Stage

/-- What a client at this point has not counted yet. -/
def Progress.owed (count : Phase → Nat) : Progress w n V → Nat
  | .next stage => count stage.phase
  | .ended _ => 0
  | .broken _ => 0

namespace Node

/-- A word of a vacant slot, or a word that is there already, is no change of the entries. -/
theorem stored?_setWord {node : Node w n V} {slot s : Fin w} {index : Fin n} {word : UInt64}
    (h : node.face.key slot = none ∨ (node.keys.get slot).words.get index = word) :
    (node.setWord slot index word).stored? s = node.stored? s := by
  have hface := congrArg (fun f => f.key s) (face_setWord h)
  simp only [face_key] at hface
  have hvalues : (node.setWord slot index word).values = node.values := rfl
  rw [hvalues] at hface
  cases hv : node.values.get s with
  | none => simp [stored?, hvalues, hv]
  | some value =>
    rw [hv] at hface
    simp only [Option.map_some, Option.some.injEq] at hface
    simp [stored?, hvalues, hv, hface]

end Node

namespace Tree

/-- The trees have the same entries and nodes in use, and they count the same. -/
structure Alike (before after : Tree w n V) : Prop where
  holdsAt : ∀ j t k x, after.HoldsAt j t k x ↔ before.HoldsAt j t k x
  reached : after.reached = before.reached
  len : after.len = before.len
  nodeCount : after.nodeCount = before.nodeCount

variable {before after tree : Tree w n V} {i : Nat}

theorem Alike.refl (tree : Tree w n V) : tree.Alike tree := ⟨fun _ _ _ _ => Iff.rfl, rfl, rfl, rfl⟩

theorem Alike.entries (h : before.Alike after) : after.entries = before.entries := by
  ext ⟨j, t⟩
  exact exists_congr fun k => exists_congr fun x => h.holdsAt j t k x

theorem reached_of_layout (h : after.layout = before.layout) : after.reached = before.reached := by
  rw [reached, reached, h]

theorem alike_setVersion (version : Version) : tree.Alike (tree.setVersion i version) where
  holdsAt := fun _ _ _ _ => holdsAt_setVersion
  reached := reached_of_layout (layout_setVersion version)
  len := rfl
  nodeCount := rfl

theorem alike_create (size : 0 < tree.nodes.size) (key : Key n) (value : V) :
    tree.Alike (tree.addNode (.ofEntry key value) (Node.links_ofEntry key value)) where
  holdsAt := fun _ _ _ _ => holdsAt_create size
  reached := by
    ext j
    exact reachable_create size
  len := rfl
  nodeCount := rfl

theorem alike_setWord {slot : Fin w} {index : Fin n} {word : UInt64}
    (h : (tree.node i).face.key slot = none ∨
      ((tree.node i).keys.get slot).words.get index = word) :
    tree.Alike (tree.setWord i slot index word) where
  holdsAt := by
    intro j t k x
    rw [HoldsAt, HoldsAt, layout_setWord h, node_setWord]
    split_ifs with hij
    · rw [← hij.1, Node.stored?_setWord h]
    · rfl
  reached := reached_of_layout (layout_setWord h)
  len := rfl
  nodeCount := rfl

end Tree

namespace Stage

/-- What an access does to the contents, to the counters and to the phase of its client. -/
structure Accounts (tree : Tree w n V) (request : Request n V) (stage : Stage w n V)
    (result : Progress w n V × Tree w n V) : Prop where
  same : stage.effect? request = none → ∀ k x, result.2.Holds k x ↔ tree.Holds k x
  stores : ∀ key value, stage.effect? request = some (key, value) →
    tree.Stores result.2 key value
  entries : result.2.entries.ncard + tree.len + stage.phase.entries =
    tree.entries.ncard + result.2.len + result.1.owed Phase.entries
  nodes : result.2.reached.ncard + tree.nodeCount + stage.phase.nodes =
    tree.reached.ncard + result.2.nodeCount + result.1.owed Phase.nodes
  next : ∀ following, result.1 = .next following →
    (following.phase ≠ .searching ↔ stage.phase ≠ .searching ∨ stage.isWrite = true)
  ended : ∀ reply, result.1 = .ended reply →
    stage.isWrite = false ∧ (stage.phase ≠ .searching ↔ request.value?.isSome = true)

variable {tree after : Tree w n V} {request : Request n V} {stage following : Stage w n V}

/-- The client neither writes its entry nor counts it. -/
def isQuiet : Stage w n V → Bool
  | swapValue _ _ _ _ | storeChild _ _ _ | countNode _ | countEntry _ => false
  | _ => true

theorem isWrite_of_isQuiet (h : stage.isQuiet = true) : stage.isWrite = false := by
  cases stage <;> first | rfl | cases h

theorem owed_of_isQuiet (h : stage.isQuiet = true) :
    stage.phase.nodes = 0 ∧ stage.phase.entries = 0 := by
  cases stage <;> first | exact ⟨rfl, rfl⟩ | cases h

section Quiet

variable (quiet : stage.isQuiet = true)

include quiet

theorem Accounts.next_of_alike (alike : tree.Alike after) (same : following.phase = stage.phase) :
    stage.Accounts tree request (.next following, after) where
  same := fun _ => Tree.holds_congr alike.holdsAt
  stores := by
    intro key value h
    rw [effect?_of_not_isWrite (isWrite_of_isQuiet quiet)] at h
    cases h
  entries := by
    rw [alike.entries, alike.len, Progress.owed, same]
  nodes := by
    rw [alike.reached, alike.nodeCount, Progress.owed, same]
  next := by
    rintro _ ⟨⟩
    simp [same, isWrite_of_isQuiet quiet]
  ended := fun _ h => nomatch h

theorem Accounts.ended_of_alike {reply : Reply V} (alike : tree.Alike after)
    (phase : stage.phase ≠ .searching ↔ request.value?.isSome = true) :
    stage.Accounts tree request (.ended reply, after) where
  same := fun _ => Tree.holds_congr alike.holdsAt
  stores := by
    intro key value h
    rw [effect?_of_not_isWrite (isWrite_of_isQuiet quiet)] at h
    cases h
  entries := by
    rw [alike.entries, alike.len, Progress.owed, (owed_of_isQuiet quiet).2]
  nodes := by
    rw [alike.reached, alike.nodeCount, Progress.owed, (owed_of_isQuiet quiet).1]
  next := fun _ h => nomatch h
  ended := fun _ _ => ⟨isWrite_of_isQuiet quiet, phase⟩

theorem Accounts.broken {cause : Fault} : stage.Accounts tree request (.broken cause, tree) where
  same := fun _ _ _ => Iff.rfl
  stores := by
    intro key value h
    rw [effect?_of_not_isWrite (isWrite_of_isQuiet quiet)] at h
    cases h
  entries := by rw [Progress.owed, (owed_of_isQuiet quiet).2]
  nodes := by rw [Progress.owed, (owed_of_isQuiet quiet).1]
  next := fun _ h => nomatch h
  ended := fun _ h => nomatch h

theorem accounts_withVersion {version : Except Fault Version} {next : Version → Stage w n V}
    (same : ∀ v, (next v).phase = stage.phase) :
    stage.Accounts tree request (withVersion version next, tree) := by
  cases version with
  | ok v => exact .next_of_alike quiet (.refl tree) (same v)
  | error cause => exact .broken quiet

end Quiet

theorem accounts_follow {i : Nat} {token : Token} {route : Route w}
    (quiet : stage.isQuiet = true) (searching : stage.phase = .searching) :
    stage.Accounts tree request (follow i token route request, tree) := by
  cases request with
  | put key value =>
    rw [follow]
    cases route.turn with
    | down child => exact .next_of_alike quiet (.refl tree) searching.symm
    | here place => exact .next_of_alike quiet (.refl tree) searching.symm
  | get key =>
    rcases route with slot | slot | ⟨link, _ | child⟩
    · exact .next_of_alike quiet (.refl tree) searching.symm
    · exact .ended_of_alike quiet (.refl tree) (by simp [searching, Request.value?])
    · exact .ended_of_alike quiet (.refl tree) (by simp [searching, Request.value?])
    · exact .next_of_alike quiet (.refl tree) searching.symm

theorem accounts_of_isQuiet (wf : tree.Wellformed) (h : stage.Holds tree request)
    (quiet : stage.isQuiet = true) : stage.Accounts tree request (stage.step request tree) := by
  have fits := h.fits
  have sees := h.sees
  cases stage with
  | takeToken i =>
    rw [step]
    split
    · exact .next_of_alike rfl (.refl tree) rfl
    · exact .next_of_alike rfl (.refl tree) (phase_scanSlot ..)
  | readSlot i token slot =>
    rw [step]
    split
    · exact .next_of_alike rfl (.refl tree) (phase_scanWord ..)
    · exact .next_of_alike rfl (.refl tree) rfl
  | readWord i token slot index =>
    rw [step]
    split
    · exact .next_of_alike rfl (.refl tree) (phase_scanWord ..)
    · exact .next_of_alike rfl (.refl tree) rfl
    · exact .next_of_alike rfl (.refl tree) (phase_scanSlot ..)
  | readLink i token link => exact .next_of_alike rfl (.refl tree) rfl
  | validate i token route =>
    rw [step]
    split
    · exact .next_of_alike rfl (.refl tree) rfl
    · exact accounts_follow rfl rfl
  | readValue i slot =>
    have hget : request.value? = none := fits
    exact .ended_of_alike rfl (.refl tree) (by simp [phase, hget])
  | recheck i token place =>
    rw [step]
    split
    · exact .next_of_alike rfl (.refl tree) rfl
    · exact .next_of_alike rfl (.refl tree) rfl
  | readVersion i token place =>
    rw [step]
    split
    · exact .next_of_alike rfl (.refl tree) rfl
    · exact .next_of_alike rfl (.refl tree) rfl
  | swapVersion i token place expected =>
    rw [step]
    split
    · exact .next_of_alike rfl (Tree.alike_setVersion _) rfl
    · exact .next_of_alike rfl (.refl tree) rfl
  | confirm i token place =>
    rw [step]
    split
    · exact .next_of_alike rfl (.refl tree) rfl
    · cases request with
      | get key => cases fits
      | put key value =>
        cases place with
        | update slot => exact .next_of_alike rfl (.refl tree) (phase_writeWord ..)
        | fill slot => exact .next_of_alike rfl (.refl tree) rfl
        | attach link => exact .next_of_alike rfl (Tree.alike_create wf.size key value) rfl
  | readRetreat i => exact accounts_withVersion rfl fun _ => rfl
  | storeRetreat i unlocked => exact .next_of_alike rfl (Tree.alike_setVersion _) rfl
  | readMarkFill i slot => exact accounts_withVersion rfl fun _ => rfl
  | storeMarkFill i slot marked =>
    cases request with
    | get key => cases fits
    | put key value => exact .next_of_alike rfl (Tree.alike_setVersion _) (phase_writeWord ..)
  | readMarkAttach i link child => exact accounts_withVersion rfl fun _ => rfl
  | storeMarkAttach i link child marked =>
    exact .next_of_alike rfl (Tree.alike_setVersion _) rfl
  | storeWord i slot isNew index value =>
    have routes : (tree.node i).face.Routes request.key (entryPlace isNew slot).route := sees.2.1
    have nochange := nochange_of_entryPlace routes index
    exact .next_of_alike rfl (Tree.alike_setWord nochange) (phase_writeWord ..)
  | readChild i link child =>
    rw [step]
    split
    · exact .broken rfl
    · exact .next_of_alike rfl (.refl tree) rfl
  | readUnlock i => exact accounts_withVersion rfl fun _ => rfl
  | storeUnlock i unlocked =>
    have hput : request.value?.isSome = true := fits
    exact .ended_of_alike rfl (Tree.alike_setVersion _) (by simp [phase, hput])
  | swapValue | storeChild | countNode | countEntry => cases quiet

section Loud

variable {i child : Nat} {slot : Fin w} {link : Fin (w + 1)} {value : V} {isNew : Bool}
  (wf : tree.Wellformed)

include wf

theorem accounts_swapValue (h : (swapValue i slot isNew value).Holds tree request) :
    (swapValue i slot isNew value).Accounts tree request
      ((swapValue i slot isNew value).step request tree) := by
  obtain ⟨held, routes, same⟩ : (tree.node i).version.IsHeld isNew ∧
    (tree.node i).face.Routes request.key (entryPlace isNew slot).route ∧
      (tree.node i).keys.get slot = request.key := h.sees
  have fits : request.value? = some value := h.fits
  have hi : i < tree.nodes.size := h.lt_size wf.size
  obtain ⟨d, path⟩ := h.path
  have reachable : tree.layout.Reachable i := path.reachable
  have keeps := keeps_swapValue wf h
  rw [step, Tree.setValue_eq_assign same] at keeps ⊢
  have hkey := key_of_entryPlace routes
  have heffect : (swapValue i slot isNew value).effect? request = some (request.key, value) := by
    simp [effect?, isWrite, fits]
  refine ⟨?_, ?_, ?_, ?_, ?_, fun _ hc => by cases hc⟩
  · intro hc
    rw [heffect] at hc
    cases hc
  · intro key x hc
    rw [heffect] at hc
    cases hc
    refine Tree.stores_assign hi reachable keeps.wellformed.sound ?_
    intro k hk
    have hk : (if isNew then none else some request.key) = some k := hkey.symm.trans hk
    cases isNew with
    | true => cases hk
    | false => exact (Option.some.inj hk).symm
  · cases isNew with
    | true =>
      have hcount : (tree.assign i slot request.key value).entries.ncard = tree.entries.ncard + 1 :=
        Tree.ncard_entries_assign_of_vacant hi reachable hkey
      rw [hcount]
      change _ + tree.len + 0 = _ + tree.len + 1
      omega
    | false =>
      rw [Tree.entries_assign_of_found hi reachable hkey]
      rfl
  · rw [Tree.reached_assign hi]
    cases isNew <;> rfl
  · intro following hc
    obtain rfl := Progress.next.inj hc
    cases isNew <;> simp [phase, isWrite]

theorem accounts_storeChild (hw : 0 < w) (h : (storeChild i link child).Holds tree request) :
    (storeChild i link child).Accounts tree request
      ((storeChild i link child).step request tree) := by
  obtain ⟨held, routes⟩ : (tree.node i).version.IsHeld true ∧
    (tree.node i).face.Routes request.key (.descend link none) := h.sees
  obtain ⟨younger, value, hvalue, spare⟩ := h.child child rfl
  have young : i < child := younger
  obtain ⟨d, path⟩ := h.path
  have reachable : tree.layout.Reachable i := path.reachable
  have sound : (tree.setLink i link child).layout.Sound :=
    Tree.sound_setLink spare young wf.sound path routes
  have heffect : (storeChild i link child).effect? request = some (request.key, value) := by
    simp [effect?, isWrite, hvalue]
  refine ⟨?_, ?_, ?_, ?_, ?_, fun _ hc => by cases hc⟩
  · intro hc
    rw [heffect] at hc
    cases hc
  · intro key x hc
    rw [heffect] at hc
    cases hc
    exact Tree.stores_setLink spare young reachable routes.2 hw sound
  · change (tree.setLink i link child).entries.ncard + tree.len + 0 =
      tree.entries.ncard + (tree.setLink i link child).len + 1
    rw [Tree.ncard_entries_setLink spare young reachable routes.2 hw wf.size, Tree.len_setLink]
    omega
  · change (tree.setLink i link child).reached.ncard + tree.nodeCount + 0 =
      tree.reached.ncard + (tree.setLink i link child).nodeCount + 1
    rw [Tree.ncard_reached_setLink spare young reachable routes.2 wf.size, Tree.nodeCount_setLink]
    omega
  · intro following hc
    obtain rfl := Progress.next.inj hc
    simp [phase, isWrite]

omit wf

theorem accounts_countNode : (countNode i).Accounts tree request
    ((countNode i).step request tree) where
  same := fun _ _ _ => Iff.rfl
  stores := fun _ _ h => nomatch h
  entries := rfl
  nodes := rfl
  next := by
    rintro _ ⟨⟩
    simp [phase]
  ended := fun _ h => nomatch h

theorem accounts_countEntry : (countEntry i).Accounts tree request
    ((countEntry i).step request tree) where
  same := fun _ _ _ => Iff.rfl
  stores := fun _ _ h => nomatch h
  entries := rfl
  nodes := rfl
  next := by
    rintro _ ⟨⟩
    simp [phase]
  ended := fun _ h => nomatch h

end Loud

/-- Every access accounts for what it does. -/
theorem accounts_step (hw : 0 < w) (wf : tree.Wellformed) (h : stage.Holds tree request) :
    stage.Accounts tree request (stage.step request tree) := by
  cases hquiet : stage.isQuiet with
  | true => exact accounts_of_isQuiet wf h hquiet
  | false =>
    cases stage with
    | swapValue i slot isNew value => exact accounts_swapValue wf h
    | storeChild i link child => exact accounts_storeChild wf hw h
    | countNode i => exact accounts_countNode
    | countEntry i => exact accounts_countEntry
    | _ => cases hquiet

end Stage

end FanoutIndex
