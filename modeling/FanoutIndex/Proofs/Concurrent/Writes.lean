import FanoutIndex.Proofs.Concurrent.Locked

/-!
# Writes, access by access

Where the owner of a lock finds its token current, its key still leads where it led. Then it writes
an entry, word by word and the value last, or hangs a node that nobody else knows of.
-/

namespace FanoutIndex

variable {w n : Nat} {V : Type}

namespace Stage

variable {tree : Tree w n V} {request : Request n V} {stage : Stage w n V} {i : Nat}
  {token : Token} {slot : Fin w} {link : Fin (w + 1)} {child : Nat} {value : V} {isNew : Bool}

/-- What a slot holds while an entry is written to it. -/
theorem key_of_entryPlace {node : Node w n V} {key : Key n}
    (routes : node.face.Routes key (entryPlace isNew slot).route) :
    node.face.key slot = if isNew then none else some key := by
  cases isNew with
  | true => exact routes.2
  | false => exact routes.2

theorem nochange_of_entryPlace {node : Node w n V} {key : Key n}
    (routes : node.face.Routes key (entryPlace isNew slot).route) (index : Fin n) :
    node.face.key slot = none ∨ (node.keys.get slot).words.get index = key.words.get index := by
  have hkey := key_of_entryPlace routes
  cases isNew with
  | true => exact .inl hkey
  | false => exact .inr (by rw [Node.keys_eq_of_face_key hkey])

variable (wf : tree.Wellformed)

include wf

theorem keeps_create {key : Key n} (h : (confirm i token (.attach link)).Holds tree request)
    (put : request = .put key value) (held : (tree.node i).version.IsHeld false)
    (routes : (tree.node i).face.Routes request.key (.descend link none)) :
    (confirm i token (.attach link)).Keeps tree request
      (.next (readMarkAttach i link tree.nodes.size),
        tree.addNode (.ofEntry key value) (Node.links_ofEntry key value)) := by
  have hi : i < tree.nodes.size := h.lt_size wf.size
  obtain ⟨d, path⟩ := h.path
  refine ⟨Tree.steps_create, wf.create key value,
    follows_of_held ⟨⟨d, ?_⟩, h.fits, ?_, ?_⟩ rfl rfl ?_⟩
  · rw [Tree.layout_create]
    exact path.grows Tree.grows_create
  · change Version.IsHeld (Tree.node _ i).version false ∧ (Tree.node _ i).face.Routes _ _
    rw [Tree.node_addNode_of_lt _ _ _ hi]
    exact ⟨held, routes⟩
  · intro c hc
    obtain rfl := Option.some.inj hc
    subst put
    exact ⟨hi, value, rfl, Tree.spare_create⟩
  · intro c hc
    exact .inr (Option.some.inj hc).symm

theorem keeps_confirm {place : Place w} (h : (confirm i token place).Holds tree request) :
    (confirm i token place).Keeps tree request ((confirm i token place).step request tree) := by
  obtain ⟨held, sees⟩ : (tree.node i).version.IsHeld false ∧
    (tree.node i).Vouches token (·.Routes request.key place.route) := h.sees
  have fits : request.value?.isSome = true := h.fits
  rw [step]
  split_ifs with hchanged
  · exact .same wf (follows_of_bare h.path h.fits held rfl rfl rfl)
  · -- The token is current, so the key leads where it led when the route was read.
    have routes := sees.current
      (Version.IsCurrent.of_hasChangedLocked sees.issued (Bool.eq_false_iff.2 hchanged))
    cases request with
    | get key => cases fits
    | put key value =>
      cases place with
      | update slot =>
        refine .same wf (follows_writeWord (i := i) rfl rfl h.path rfl held routes ?_)
        exact Key.agreesBelow_zero _ _
      | fill slot =>
        exact .same wf (follows_of_bare h.path h.fits ⟨held, routes⟩ rfl rfl rfl)
      | attach link => exact keeps_create wf h rfl held routes

theorem Keeps.of_node {after : Tree w n V} {progress : Progress w n V} (node : stage.node = i)
    (holding : stage.isHolding = true) (same : tree.AgreesOff after i)
    (advances : (tree.node i).Advances (after.node i))
    (linked : ∀ l c, (after.layout i).link l = some c →
      (tree.layout i).link l = some c ∨ stage.child? = some c)
    (sound : after.layout.Sound)
    (counted : (after.node i).version.changes ≤ (after.node i).face.size)
    (follows : progress.Follows tree after request stage) :
    stage.Keeps tree request (progress, after) := by
  subst node
  exact ⟨Tree.steps_of_node same advances (.inl holding) linked,
    wf.of_node same sound counted, follows⟩

theorem keeps_storeWord {index : Fin n}
    (h : (storeWord i slot isNew index value).Holds tree request) :
    (storeWord i slot isNew index value).Keeps tree request
      ((storeWord i slot isNew index value).step request tree) := by
  obtain ⟨held, routes, agrees⟩ : (tree.node i).version.IsHeld isNew ∧
    (tree.node i).face.Routes request.key (entryPlace isNew slot).route ∧
      ((tree.node i).keys.get slot).AgreesBelow request.key index := h.sees
  have hi : i < tree.nodes.size := h.lt_size wf.size
  have nochange := nochange_of_entryPlace routes index
  have hlayout := Tree.layout_setWord nochange
  have hnode : (tree.setWord i slot index (request.key.words.get index)).node i =
      (tree.node i).setWord slot index (request.key.words.get index) := Tree.node_setWord_self hi
  have hface := Node.face_setWord nochange
  refine .of_node wf (i := i) rfl rfl Tree.agreesOff_setWord ?_ ?_ ?_ ?_ ?_
  · rw [hnode]
    exact .of_face hface (.refl _)
  · intro l c hl
    rw [hlayout] at hl
    exact .inl hl
  · rw [hlayout]
    exact wf.sound
  · rw [hnode, hface]
    exact wf.counted i
  · apply follows_writeWord (i := i) rfl rfl
    · rw [hlayout]
      exact h.path
    · exact h.fits
    · rw [hnode]
      exact held
    · rw [hnode, hface]
      exact routes
    · rw [hnode]
      intro j hj
      rw [Node.words_setWord]
      split_ifs with hji
      · rw [hji]
      · exact agrees j (Nat.lt_of_le_of_ne (Nat.le_of_lt_succ hj) fun e => hji (Fin.ext e))

/-- The value of an entry that is there is replaced: no key and no link changes. -/
theorem keeps_replace (h : (swapValue i slot false value).Holds tree request) :
    (swapValue i slot false value).Keeps tree request
      (.next (.readUnlock i), tree.assign i slot request.key value) := by
  obtain ⟨held, routes, _⟩ : (tree.node i).version.IsHeld false ∧
    (tree.node i).face.Routes request.key (.found slot) ∧
      (tree.node i).keys.get slot = request.key := h.sees
  have hi : i < tree.nodes.size := h.lt_size wf.size
  have fits : request.value? = some value := h.fits
  have hnode : (tree.assign i slot request.key value).node i =
      (tree.node i).assign slot request.key value := Tree.node_assign_self hi
  have hface : ((tree.node i).assign slot request.key value).face = (tree.node i).face :=
    (Node.face_assign _ slot request.key value).trans (Face.occupy_eq_self routes.2)
  have hlayout : (tree.assign i slot request.key value).layout = tree.layout :=
    Tree.layout_change_update hi routes
  refine .of_node wf (i := i) rfl rfl Tree.agreesOff_assign ?_ ?_ ?_ ?_ ?_
  · rw [hnode]
    exact .of_face hface (.refl _)
  · intro l c hl
    rw [hlayout] at hl
    exact .inl hl
  · rw [hlayout]
    exact wf.sound
  · rw [hnode, hface]
    exact wf.counted i
  · refine follows_of_bare ?_ (Option.isSome_of_eq_some fits) ?_ rfl rfl rfl
    · rw [hlayout]
      exact h.path
    · change (Tree.node _ i).version.isLocked = true ∧
        ((Tree.node _ i).version.isInserting = true → _)
      rw [hnode]
      refine ⟨held.1, fun hmark => ?_⟩
      cases held.2.symm.trans hmark

/-- The value makes a new entry, which is one more to show for the changes counted. -/
theorem keeps_occupy (h : (swapValue i slot true value).Holds tree request) :
    (swapValue i slot true value).Keeps tree request
      (.next (.countEntry i), tree.assign i slot request.key value) := by
  obtain ⟨held, routes, _⟩ : (tree.node i).version.IsHeld true ∧
    (tree.node i).face.Routes request.key (.vacant slot) ∧
      (tree.node i).keys.get slot = request.key := h.sees
  have hi : i < tree.nodes.size := h.lt_size wf.size
  have fits : request.value? = some value := h.fits
  obtain ⟨d, path⟩ := h.path
  have hnode : (tree.assign i slot request.key value).node i =
      (tree.node i).assign slot request.key value := Tree.node_assign_self hi
  have hface := Node.face_assign (tree.node i) slot request.key value
  have hlayout : (tree.assign i slot request.key value).layout =
      tree.layout.occupy i slot request.key := Tree.layout_assign hi slot
  have hsize : ((tree.node i).face.occupy slot request.key).size = (tree.node i).face.size + 1 :=
    Face.size_occupy routes.2
  have room : ((tree.assign i slot request.key value).node i).version.IsHeld true ∧
      ((tree.assign i slot request.key value).node i).version.changes + 1 ≤
        ((tree.assign i slot request.key value).node i).face.size := by
    rw [hnode, hface, hsize]
    exact ⟨held, Nat.succ_le_succ (wf.counted i)⟩
  refine .of_node wf (i := i) rfl rfl Tree.agreesOff_assign ?_ ?_ ?_ ?_ ?_
  · rw [hnode]
    refine ⟨?_, .refl _, fun _ => ⟨held.2, held.2⟩⟩
    rw [hface]
    exact Face.grows_occupy routes.2
  · intro l c hl
    rw [hlayout, Layout.link_occupy] at hl
    exact .inl hl
  · rw [hlayout]
    exact wf.sound.occupy routes fun _ => ⟨d, path⟩
  · exact Nat.le_of_succ_le room.2
  · refine follows_of_bare ?_ (Option.isSome_of_eq_some fits) room rfl rfl rfl
    rw [hlayout]
    exact ⟨d, path.grows (Layout.grows_occupy routes.2)⟩

theorem keeps_swapValue (h : (swapValue i slot isNew value).Holds tree request) :
    (swapValue i slot isNew value).Keeps tree request
      ((swapValue i slot isNew value).step request tree) := by
  have same : (tree.node i).keys.get slot = request.key := h.sees.2.2
  rw [step, Tree.setValue_eq_assign same]
  cases isNew with
  | true => exact keeps_occupy wf h
  | false => exact keeps_replace wf h

theorem keeps_readChild (h : (readChild i link child).Holds tree request) :
    (readChild i link child).Keeps tree request ((readChild i link child).step request tree) := by
  obtain ⟨held, routes⟩ : (tree.node i).version.IsHeld true ∧
    (tree.node i).face.Routes request.key (.descend link none) := h.sees
  have hempty : (tree.node i).links.get link = none := routes.2
  rw [step, hempty]
  exact .same wf (follows_of_held ⟨h.path, h.fits, ⟨held, routes⟩, h.child⟩ rfl rfl
    fun c hc => .inl hc)

theorem keeps_storeChild (h : (storeChild i link child).Holds tree request) :
    (storeChild i link child).Keeps tree request ((storeChild i link child).step request tree) := by
  obtain ⟨held, routes⟩ : (tree.node i).version.IsHeld true ∧
    (tree.node i).face.Routes request.key (.descend link none) := h.sees
  obtain ⟨younger, value, hvalue, spare⟩ := h.child child rfl
  obtain ⟨d, path⟩ := h.path
  have young : i < child ∧ child < tree.nodes.size := ⟨younger, spare.known⟩
  have hlayout : (tree.setLink i link child).layout = tree.layout.hang i link child :=
    Tree.layout_setLink young
  have hnode : (tree.setLink i link child).node i = (tree.node i).setLink link child := by
    rw [Tree.node_setLink _ young, if_pos rfl]
  have hface := Node.face_setLink (tree.node i) link child
  have hsize : ((tree.node i).face.hang link child).size = (tree.node i).face.size + 1 :=
    Face.size_hang routes.2
  have room : ((tree.setLink i link child).node i).version.IsHeld true ∧
      ((tree.setLink i link child).node i).version.changes + 1 ≤
        ((tree.setLink i link child).node i).face.size := by
    rw [hnode, hface, hsize]
    exact ⟨held, Nat.succ_le_succ (wf.counted i)⟩
  refine .of_node wf (i := i) rfl rfl (Tree.agreesOff_setLink young) ?_ ?_ ?_ ?_ ?_
  · rw [hnode]
    refine ⟨?_, .refl _, fun _ => ⟨held.2, held.2⟩⟩
    rw [hface]
    exact Face.grows_hang routes.2
  · intro l c hl
    rw [hlayout, Layout.link_hang] at hl
    split_ifs at hl
    · exact .inr hl
    · exact .inl hl
  · exact Tree.sound_setLink spare younger wf.sound path routes
  · exact Nat.le_of_succ_le room.2
  · refine follows_of_bare ?_ h.fits room rfl rfl rfl
    rw [hlayout]
    exact ⟨d, path.grows (Layout.grows_hang routes.2)⟩

theorem keeps_countNode (h : (countNode i).Holds tree request) :
    (countNode i).Keeps tree request ((countNode i).step request tree) := by
  refine ⟨.of_nodes rfl, wf.of_nodes rfl, ?_⟩
  exact follows_of_bare h.path h.fits h.sees rfl rfl rfl

theorem keeps_countEntry (h : (countEntry i).Holds tree request) :
    (countEntry i).Keeps tree request ((countEntry i).step request tree) := by
  obtain ⟨held, counted⟩ : (tree.node i).version.IsHeld true ∧
    (tree.node i).version.changes + 1 ≤ (tree.node i).face.size := h.sees
  refine ⟨.of_nodes rfl, wf.of_nodes rfl, ?_⟩
  exact follows_of_bare h.path h.fits ⟨held.1, fun _ => counted⟩ rfl rfl rfl

theorem keeps_step (wide : w < 2 ^ 29) (h : stage.Holds tree request) :
    stage.Keeps tree request (stage.step request tree) := by
  cases stage with
  | takeToken i => exact keeps_takeToken wf h
  | readSlot i token slot => exact keeps_readSlot wf h
  | readWord i token slot index => exact keeps_readWord wf h
  | readLink i token link => exact keeps_readLink wf h
  | validate i token route => exact keeps_validate wf h
  | readValue i slot => exact keeps_readValue wf h
  | recheck i token place => exact keeps_recheck wf h
  | readVersion i token place => exact keeps_readVersion wf h
  | swapVersion i token place expected => exact keeps_swapVersion wf h
  | confirm i token place => exact keeps_confirm wf h
  | readRetreat i => exact keeps_readRetreat wf h
  | storeRetreat i unlocked => exact keeps_storeRetreat wf h
  | readMarkFill i slot => exact keeps_readMarkFill wf h
  | storeMarkFill i slot marked => exact keeps_storeMarkFill wf h
  | readMarkAttach i link child => exact keeps_readMarkAttach wf h
  | storeMarkAttach i link child marked => exact keeps_storeMarkAttach wf h
  | storeWord i slot isNew index value => exact keeps_storeWord wf h
  | swapValue i slot isNew value => exact keeps_swapValue wf h
  | readChild i link child => exact keeps_readChild wf h
  | storeChild i link child => exact keeps_storeChild wf h
  | countNode i => exact keeps_countNode wf h
  | countEntry i => exact keeps_countEntry wf h
  | readUnlock i => exact keeps_readUnlock wf h
  | storeUnlock i unlocked => exact keeps_storeUnlock wf wide h

end Stage

end FanoutIndex
