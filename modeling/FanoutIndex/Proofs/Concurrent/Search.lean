import FanoutIndex.Proofs.Concurrent.Stages

namespace FanoutIndex

variable {w n : Nat} {V : Type}

/-- The reply tells what the tree holds. -/
def Request.IsAnswered (tree : Tree w n V) : Request n V → Reply V → Prop
  | .put _ _, .stored => True
  | .get key, .found value => ∀ v, value = some v ↔ tree.Holds key v
  | _, _ => False

/-- What is true after an access that was made at a stage. -/
def Progress.Follows (before after : Tree w n V) (request : Request n V) (stage : Stage w n V) :
    Progress w n V → Prop
  | .next following => following.Holds after request ∧
      (following.isHolding = true → stage.isHolding = true ∧ stage.node = following.node ∨
        (before.node following.node).version.isLocked = false) ∧
      ∀ c, following.child? = some c → stage.child? = some c ∨ c = before.nodes.size
  | .ended reply => request.IsAnswered after reply
  | .broken _ => False

namespace Stage

/-- An access keeps the tree in order and leads to a stage with what the client relies on there. -/
structure Keeps (tree : Tree w n V) (request : Request n V) (stage : Stage w n V)
    (result : Progress w n V × Tree w n V) : Prop where
  steps : tree.Steps result.2 stage
  wellformed : result.2.Wellformed
  follows : result.1.Follows tree result.2 request stage

variable {tree : Tree w n V} {request : Request n V} {stage next : Stage w n V}
  {progress : Progress w n V} {i : Nat} {token : Token}

theorem Keeps.same (wf : tree.Wellformed) (h : progress.Follows tree tree request stage) :
    stage.Keeps tree request (progress, tree) :=
  ⟨.refl tree stage, wf, h⟩

theorem follows_of_free (h : next.Holds tree request) (free : next.isHolding = false)
    (bare : next.child? = none) : (Progress.next next).Follows tree tree request stage := by
  refine ⟨h, ?_, ?_⟩
  · intro holding
    rw [free] at holding
    contradiction
  · intro c hc
    rw [bare] at hc
    cases hc

theorem holds_of_free (path : ∃ d, tree.layout.Path request.key next.node d)
    (fits : next.Fits request) (sees : next.Sees request (tree.node next.node))
    (bare : next.child? = none) : next.Holds tree request where
  path := path
  fits := fits
  sees := sees
  child := by
    intro c hc
    rw [bare] at hc
    cases hc

theorem holds_start : (start : Stage w n V).Holds tree request :=
  holds_of_free ⟨1, .root⟩ trivial trivial rfl

theorem follows_start : (Progress.next (start : Stage w n V)).Follows tree tree request stage :=
  follows_of_free holds_start rfl rfl

section Scan

variable (path : ∃ d, tree.layout.Path request.key i d)

include path

theorem follows_takeToken :
    (Progress.next (.takeToken i : Stage w n V)).Follows tree tree request stage :=
  follows_of_free (holds_of_free path trivial trivial rfl) rfl rfl

theorem follows_scanSlot {slot : Nat} (hslot : slot ≤ w)
    (h : (tree.node i).Vouches token (·.Precedes request.key slot)) :
    (Progress.next (scanSlot i token slot : Stage w n V)).Follows tree tree request stage := by
  by_cases hlt : slot < w
  · rw [scanSlot, dif_pos hlt]
    exact follows_of_free (holds_of_free path trivial h rfl) rfl rfl
  · obtain rfl : slot = w := Nat.le_antisymm hslot (Nat.le_of_not_lt hlt)
    rw [scanSlot, dif_neg hlt]
    have hleads : (tree.node i).Vouches token (·.LeadsTo request.key (Fin.last slot)) :=
      h.imp fun hp => ⟨hp, fun hw => absurd hw (Nat.lt_irrefl _)⟩
    exact follows_of_free (holds_of_free path trivial hleads rfl) rfl rfl

theorem follows_validate {route : Route w}
    (h : (tree.node i).Vouches token (·.Routes request.key route)) :
    (Progress.next (.validate i token route : Stage w n V)).Follows tree tree request stage :=
  follows_of_free (holds_of_free path trivial h rfl) rfl rfl

theorem follows_scanWord {slot : Fin w} {index : Nat}
    (h : (tree.node i).Vouches token fun f => f.Precedes request.key slot ∧
      ∃ k, f.key slot = some k ∧ request.key.AgreesBelow k index) :
    (Progress.next (scanWord i token slot index : Stage w n V)).Follows tree tree request
      stage := by
  by_cases hlt : index < n
  · rw [scanWord, dif_pos hlt]
    exact follows_of_free (holds_of_free path trivial h rfl) rfl rfl
  · rw [scanWord, dif_neg hlt]
    apply follows_validate path
    refine h.imp ?_
    rintro ⟨hp, k, hk, hagrees⟩
    rw [← hagrees.eq (Nat.le_of_not_lt hlt)] at hk
    exact ⟨hp, hk⟩

end Scan

variable (wf : tree.Wellformed)

include wf

theorem keeps_takeToken (h : (takeToken i).Holds tree request) :
    (takeToken i).Keeps tree request ((takeToken i).step request tree) := by
  rw [step]
  cases htoken : (tree.node i).version.stable? with
  | none => exact .same wf (follows_takeToken h.path)
  | some token =>
    obtain ⟨rest, rfl⟩ := Version.stable?_eq_some_iff.1 htoken
    refine .same wf (follows_scanSlot h.path (Nat.zero_le w) (Node.vouches_of_rest rest ?_))
    exact fun s hs => absurd hs (Nat.not_lt_zero _)

theorem keeps_readSlot {slot : Fin w} (h : (readSlot i token slot).Holds tree request) :
    (readSlot i token slot).Keeps tree request ((readSlot i token slot).step request tree) := by
  have sees : (tree.node i).Vouches token (·.Precedes request.key slot) := h.sees
  rw [step]
  split_ifs with hocc
  · refine .same wf (follows_scanWord h.path (sees.imp fun hp => ⟨hp, ?_⟩))
    exact ⟨_, (tree.node i).face_key_of_isOccupied hocc, Key.agreesBelow_zero _ _⟩
  · refine .same wf (follows_validate h.path (sees.imp fun hp => ⟨hp, ?_⟩))
    exact (tree.node i).face_key_of_not_isOccupied (Bool.eq_false_iff.2 hocc)

theorem keeps_readWord {slot : Fin w} {index : Fin n}
    (h : (readWord i token slot index).Holds tree request) :
    (readWord i token slot index).Keeps tree request
      ((readWord i token slot index).step request tree) := by
  have sees : (tree.node i).Vouches token fun f => f.Precedes request.key slot ∧
      ∃ k, f.key slot = some k ∧ request.key.AgreesBelow k index := h.sees
  rw [step]
  cases hcmp : compare (request.key.words.get index)
    (((tree.node i).keys.get slot).words.get index) with
  | eq =>
    refine .same wf (follows_scanWord h.path (sees.imp ?_))
    rintro ⟨hp, k, hk, hagrees⟩
    rw [Node.keys_eq_of_face_key hk] at hcmp
    exact ⟨hp, k, hk, hagrees.succ (Std.LawfulEqOrd.eq_of_compare hcmp)⟩
  | lt =>
    refine .same wf (follows_of_free (holds_of_free h.path trivial ?_ rfl) rfl rfl)
    refine sees.imp ?_
    rintro ⟨hp, k, hk, hagrees⟩
    rw [Node.keys_eq_of_face_key hk] at hcmp
    refine ⟨hp, fun _ => ⟨k, hk, ?_⟩⟩
    exact (hagrees.compare_eq_of_ne (by rw [hcmp]; simp)).trans hcmp
  | gt =>
    refine .same wf (follows_scanSlot h.path slot.isLt (sees.imp ?_))
    rintro ⟨hp, k, hk, hagrees⟩ s hs
    rcases Nat.lt_succ_iff_lt_or_eq.1 hs with hs | hs
    · exact hp s hs
    · obtain rfl := Fin.ext hs
      rw [Node.keys_eq_of_face_key hk] at hcmp
      refine ⟨k, hk, Key.gt_iff_compare.2 ?_⟩
      exact (hagrees.compare_eq_of_ne (by rw [hcmp]; simp)).trans hcmp

theorem keeps_readLink {link : Fin (w + 1)} (h : (readLink i token link).Holds tree request) :
    (readLink i token link).Keeps tree request ((readLink i token link).step request tree) := by
  have sees : (tree.node i).Vouches token (·.LeadsTo request.key link) := h.sees
  exact .same wf (follows_validate h.path (sees.imp fun hl => ⟨hl, rfl⟩))

theorem keeps_readValue {slot : Fin w} (h : (readValue i slot).Holds tree request) :
    (readValue i slot).Keeps tree request ((readValue i slot).step request tree) := by
  obtain ⟨d, path⟩ := h.path
  have fits : request.value? = none := h.fits
  have sees : (tree.node i).face.Routes request.key (.found slot) := h.sees
  cases request with
  | put key value => cases fits
  | get key =>
    refine .same wf fun v => ?_
    exact (Tree.holds_iff_of_found wf.sound path sees).symm

theorem follows_follow {route : Route w} (h : (validate i token route).Holds tree request)
    (routes : (tree.layout i).Routes request.key route) :
    (follow i token route request).Follows tree tree request stage := by
  obtain ⟨d, path⟩ := h.path
  have sees : (tree.node i).Vouches token (·.Routes request.key route) := h.sees
  cases request with
  | put key value =>
    rw [follow]
    cases hturn : route.turn with
    | down child =>
      obtain ⟨link, rfl⟩ := turn_eq_down_iff.1 hturn
      exact follows_takeToken ⟨d + 1, path.step routes⟩
    | here place =>
      obtain rfl := turn_eq_here_iff.1 hturn
      exact follows_of_free (holds_of_free h.path rfl sees rfl) rfl rfl
  | get key =>
    rcases route with slot | slot | ⟨link, _ | child⟩
    · exact follows_of_free (holds_of_free h.path rfl routes rfl) rfl rfl
    · intro v
      have hend : (tree.layout i).Routes key (Place.fill slot).route := routes
      have absent : ¬tree.Holds key v := Tree.not_holds_of_end wf.sound path hend (by simp)
      simpa using absent
    · intro v
      have hend : (tree.layout i).Routes key (Place.attach link).route := routes
      have absent : ¬tree.Holds key v := Tree.not_holds_of_end wf.sound path hend (by simp)
      simpa using absent
    · exact follows_takeToken ⟨d + 1, path.step routes⟩

theorem keeps_validate {route : Route w} (h : (validate i token route).Holds tree request) :
    (validate i token route).Keeps tree request ((validate i token route).step request tree) := by
  have sees : (tree.node i).Vouches token (·.Routes request.key route) := h.sees
  rw [step]
  split_ifs with hchanged
  · exact .same wf (follows_takeToken h.path)
  · have hcurrent := Version.IsCurrent.of_hasChanged sees.issued (Bool.eq_false_iff.2 hchanged)
    exact .same wf (follows_follow wf h (sees.current hcurrent))

theorem keeps_recheck {place : Place w} (h : (recheck i token place).Holds tree request) :
    (recheck i token place).Keeps tree request ((recheck i token place).step request tree) := by
  rw [step]
  split_ifs
  · exact .same wf follows_start
  · exact .same wf (follows_of_free (holds_of_free h.path h.fits h.sees rfl) rfl rfl)

theorem keeps_readVersion {place : Place w} (h : (readVersion i token place).Holds tree request) :
    (readVersion i token place).Keeps tree request
      ((readVersion i token place).step request tree) := by
  rw [step]
  split_ifs with hbusy
  · exact .same wf follows_start
  · have sees : (tree.node i).Vouches token (·.Routes request.key place.route) := h.sees
    refine .same wf (follows_of_free (holds_of_free h.path h.fits ?_ rfl) rfl rfl)
    exact ⟨sees, Bool.eq_false_iff.2 hbusy⟩

end Stage

end FanoutIndex
