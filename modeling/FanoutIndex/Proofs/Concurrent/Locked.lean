import FanoutIndex.Proofs.Concurrent.Change

namespace FanoutIndex

variable {w n : Nat} {V : Type}

namespace Stage

variable {tree after : Tree w n V} {request : Request n V} {stage next : Stage w n V} {i : Nat}
  {token : Token} {slot : Fin w} {link : Fin (w + 1)} {child : Nat} {value : V}

/-- A client that holds its lock goes on with it. -/
theorem follows_of_held (h : next.Holds after request) (held : stage.isHolding = true)
    (node : stage.node = next.node)
    (children : ∀ c, next.child? = some c → stage.child? = some c ∨ c = tree.nodes.size) :
    (Progress.next next).Follows tree after request stage :=
  ⟨h, fun _ => .inl ⟨held, node⟩, children⟩

theorem follows_of_bare (path : ∃ d, after.layout.Path request.key next.node d)
    (fits : next.Fits request) (sees : next.Sees request (after.node next.node))
    (bare : next.child? = none) (held : stage.isHolding = true) (node : stage.node = next.node) :
    (Progress.next next).Follows tree after request stage := by
  apply follows_of_held (holds_of_free path fits sees bare) held node
  intro c hc
  rw [bare] at hc
  cases hc

theorem follows_unlocked :
    (Progress.next (start : Stage w n V)).Follows tree after request stage := by
  refine ⟨holds_start, ?_, ?_⟩
  · intro h
    cases h
  · intro c hc
    cases hc

theorem follows_writeWord {isNew : Bool} {index : Nat} (held : stage.isHolding = true)
    (node : stage.node = i) (path : ∃ d, after.layout.Path request.key i d)
    (fits : request.value? = some value) (locked : (after.node i).version.IsHeld isNew)
    (routes : (after.node i).face.Routes request.key (entryPlace isNew slot).route)
    (agrees : ((after.node i).keys.get slot).AgreesBelow request.key index) :
    (Progress.next (writeWord i slot isNew value index)).Follows tree after request stage := by
  by_cases hlt : index < n
  · rw [writeWord, dif_pos hlt]
    exact follows_of_bare path fits ⟨locked, routes, agrees⟩ rfl held node
  · rw [writeWord, dif_neg hlt]
    have same := agrees.eq (Nat.le_of_not_lt hlt)
    exact follows_of_bare path fits ⟨locked, routes, same⟩ rfl held node

variable (wf : tree.Wellformed)

include wf

theorem Keeps.setVersion {progress : Progress w n V} {version : Version} (hi : i < tree.nodes.size)
    (node : stage.node = i) (advances : (tree.node i).version.Advances version)
    (free : stage.isHolding = true ∨ (tree.node i).version.isLocked = false)
    (room : version.changes ≤ (tree.node i).face.size)
    (follows : (tree.setVersion i version).node i = (tree.node i).setVersion version →
      (tree.setVersion i version).layout = tree.layout →
      progress.Follows tree (tree.setVersion i version) request stage) :
    stage.Keeps tree request (progress, tree.setVersion i version) :=
  ⟨Tree.steps_setVersion node hi advances free, Tree.wellformed_setVersion wf hi room,
    follows (Tree.node_setVersion_self hi) (Tree.layout_setVersion version)⟩

theorem keeps_swapVersion {place : Place w} {expected : Version}
    (h : (swapVersion i token place expected).Holds tree request) :
    (swapVersion i token place expected).Keeps tree request
      ((swapVersion i token place expected).step request tree) := by
  obtain ⟨sees, rest⟩ : (tree.node i).Vouches token (·.Routes request.key place.route) ∧
    expected.isBusy = false := h.sees
  have hi : i < tree.nodes.size := h.lt_size wf.size
  rw [step]
  split_ifs with hsame
  · subst hsame
    have advances := Version.advances_locked rest
    have free := Version.isLocked_of_not_busy rest
    refine .setVersion wf hi rfl advances (.inr free)
      ((Version.changes_locked rest).trans_le (wf.counted i)) fun hnode hlayout => ?_
    refine ⟨holds_of_free ?_ h.fits ?_ rfl, fun _ => .inr free, fun c hc => by cases hc⟩
    · rw [hlayout]
      exact h.path
    · change Version.IsHeld ((tree.setVersion i _).node i).version false ∧
        ((tree.setVersion i _).node i).Vouches token _
      rw [hnode]
      exact ⟨Version.isHeld_locked rest, sees.advances (.setVersion advances)⟩
  · exact .same wf follows_start

theorem keeps_readRetreat (h : (readRetreat i).Holds tree request) :
    (readRetreat i).Keeps tree request ((readRetreat i).step request tree) := by
  have held : (tree.node i).version.IsHeld false := h.sees
  have hunlock := Version.unlock_of_isLocked held.1
  rw [step, hunlock]
  exact .same wf (follows_of_bare h.path h.fits ⟨held, hunlock⟩ rfl rfl rfl)

theorem keeps_storeRetreat {unlocked : Version}
    (h : (storeRetreat i unlocked).Holds tree request) :
    (storeRetreat i unlocked).Keeps tree request
      ((storeRetreat i unlocked).step request tree) := by
  obtain ⟨held, hunlock⟩ : (tree.node i).version.IsHeld false ∧
    (tree.node i).version.unlock = .ok unlocked := h.sees
  have room : (tree.node i).version.isInserting = true →
      (tree.node i).version.changes + 1 < 2 ^ 30 := by
    intro hmark
    rw [held.2] at hmark
    cases hmark
  have hchanges := Version.changes_unlock hunlock room
  rw [held.2] at hchanges
  exact .setVersion wf (h.lt_size wf.size) rfl (Version.advances_unlock hunlock room) (.inl rfl)
    (hchanges.trans_le (wf.counted i)) fun _ _ => follows_unlocked

theorem keeps_readMarkFill (h : (readMarkFill i slot).Holds tree request) :
    (readMarkFill i slot).Keeps tree request ((readMarkFill i slot).step request tree) := by
  obtain ⟨held, routes⟩ : (tree.node i).version.IsHeld false ∧
    (tree.node i).face.Routes request.key (.vacant slot) := h.sees
  have hmark := Version.markInsert_of_isLocked held.1
  rw [step, hmark]
  exact .same wf (follows_of_bare h.path h.fits ⟨held, routes, hmark⟩ rfl rfl rfl)

theorem keeps_storeMarkFill {marked : Version}
    (h : (storeMarkFill i slot marked).Holds tree request) :
    (storeMarkFill i slot marked).Keeps tree request
      ((storeMarkFill i slot marked).step request tree) := by
  obtain ⟨held, routes, hmark⟩ : (tree.node i).version.IsHeld false ∧
    (tree.node i).face.Routes request.key (.vacant slot) ∧
      (tree.node i).version.markInsert = .ok marked := h.sees
  have fits : request.value?.isSome = true := h.fits
  cases request with
  | get key => cases fits
  | put key value =>
    refine .setVersion wf (h.lt_size wf.size) rfl (Version.advances_markInsert held hmark) (.inl rfl)
      ((Version.changes_markInsert held hmark).trans_le (wf.counted i)) fun hnode hlayout => ?_
    apply follows_writeWord (i := i) rfl rfl
    · rw [hlayout]
      exact h.path
    · rfl
    · rw [hnode]
      exact Version.isHeld_markInsert held hmark
    · rw [hnode]
      exact routes
    · exact Key.agreesBelow_zero _ _

theorem keeps_readMarkAttach (h : (readMarkAttach i link child).Holds tree request) :
    (readMarkAttach i link child).Keeps tree request
      ((readMarkAttach i link child).step request tree) := by
  obtain ⟨held, routes⟩ : (tree.node i).version.IsHeld false ∧
    (tree.node i).face.Routes request.key (.descend link none) := h.sees
  have hmark := Version.markInsert_of_isLocked held.1
  rw [step, hmark]
  exact .same wf (follows_of_held ⟨h.path, h.fits, ⟨held, routes, hmark⟩, h.child⟩ rfl rfl
    fun c hc => .inl hc)

theorem keeps_storeMarkAttach {marked : Version}
    (h : (storeMarkAttach i link child marked).Holds tree request) :
    (storeMarkAttach i link child marked).Keeps tree request
      ((storeMarkAttach i link child marked).step request tree) := by
  obtain ⟨held, routes, hmark⟩ : (tree.node i).version.IsHeld false ∧
    (tree.node i).face.Routes request.key (.descend link none) ∧
      (tree.node i).version.markInsert = .ok marked := h.sees
  refine .setVersion wf (h.lt_size wf.size) rfl (Version.advances_markInsert held hmark) (.inl rfl)
    ((Version.changes_markInsert held hmark).trans_le (wf.counted i)) fun hnode hlayout => ?_
  refine follows_of_held ⟨?_, h.fits, ?_, ?_⟩ rfl rfl fun c hc => .inl hc
  · rw [hlayout]
    exact h.path
  · change Version.IsHeld ((tree.setVersion i _).node i).version true ∧
      ((tree.setVersion i _).node i).face.Routes _ _
    rw [hnode]
    exact ⟨Version.isHeld_markInsert held hmark, routes⟩
  · intro c hc
    obtain ⟨younger, value, hvalue, spare⟩ := h.child c hc
    exact ⟨younger, value, hvalue, spare.setVersion (Nat.ne_of_lt younger)⟩

theorem keeps_readUnlock (h : (readUnlock i).Holds tree request) :
    (readUnlock i).Keeps tree request ((readUnlock i).step request tree) := by
  obtain ⟨locked, marked⟩ : (tree.node i).version.isLocked = true ∧
    ((tree.node i).version.isInserting = true →
      (tree.node i).version.changes + 1 ≤ (tree.node i).face.size) := h.sees
  have hunlock := Version.unlock_of_isLocked locked
  rw [step, hunlock]
  exact .same wf (follows_of_bare h.path h.fits ⟨locked, marked, hunlock⟩ rfl rfl rfl)

theorem keeps_storeUnlock (wide : w < 2 ^ 29) {unlocked : Version}
    (h : (storeUnlock i unlocked).Holds tree request) :
    (storeUnlock i unlocked).Keeps tree request ((storeUnlock i unlocked).step request tree) := by
  obtain ⟨locked, marked, hunlock⟩ : (tree.node i).version.isLocked = true ∧
    ((tree.node i).version.isInserting = true →
      (tree.node i).version.changes + 1 ≤ (tree.node i).face.size) ∧
    (tree.node i).version.unlock = .ok unlocked := h.sees
  have fits : request.value?.isSome = true := h.fits
  have room := Tree.room_of_wide wide marked
  refine .setVersion wf (h.lt_size wf.size) rfl (Version.advances_unlock hunlock room) (.inl rfl) ?_
    fun _ _ => ?_
  · rw [Version.changes_unlock hunlock room]
    split_ifs with hmark
    · exact marked hmark
    · exact wf.counted i
  · cases request with
    | get key => cases fits
    | put key value => trivial

end Stage

end FanoutIndex
