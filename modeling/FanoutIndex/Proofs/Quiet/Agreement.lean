import FanoutIndex.Proofs.Quiet.Searches
import FanoutIndex.Proofs.Scripted.Quiet
import FanoutIndex.Proofs.Tree.Retrieval

/-!
# Readers and writers agree

The reader's search and the writer's search of one key walk down the same nodes, in a tree of any
content that nobody else works on. What the writer is told to do there is what the reader would see,
and a key that was put is found at once.
-/

namespace FanoutIndex

variable {w n : Nat} {V : Type}

/-- A place is right for a node, and a value is what a reader gets there. -/
structure Node.Tells (node : Node w n V) (place : Place w) (found : Option V) : Prop where
  value : ∀ v, found = some v ↔ ∃ slot, place = .update slot ∧ node.values.get slot = some v
  vacant : ∀ slot, place = .fill slot →
    node.isOccupied slot = false ∧ ∀ s < slot, node.isOccupied s = true
  missing : ∀ link, place = .attach link → node.links.get link = none

theorem Node.tells_of_routes {node : Node w n V} {key : Key n} {place : Place w}
    (h : node.face.Routes key place.route) : node.Tells place (node.valueOf place) := by
  constructor
  case value =>
    intro v
    cases place <;> simp [valueOf]
  case vacant =>
    intro slot hplace
    obtain rfl := hplace
    refine ⟨?_, fun s hs => ?_⟩
    · rw [← Bool.not_eq_true, isOccupied_iff, not_not]
      exact h.2
    · obtain ⟨k, hk, _⟩ := h.1 s hs
      rw [isOccupied_iff, hk]
      exact Option.some_ne_none k
  case missing =>
    intro link hplace
    obtain rfl := hplace
    exact h.2

namespace Operation

open Run

variable {tree : Tree w n V} {key : Key n} {bytes : Bytes}

/-- A put into a tree that nobody works on is read back, one level deeper if it hung a node. -/
theorem exec_read_back (settled : tree.Settled) (hw : 0 < w)
    (accepted : tree.encode bytes = .ok key) (value : V) :
    ∃ after, exec (put bytes value .own) (.quiet tree) = some (.ok (), .quiet after) ∧
      exec (get? bytes .own) (.quiet after) = some (.ok (some value), .quiet after) ∧
      exec (depthOf? bytes) (.quiet after) = some (.ok (some ((tree.trail key).length +
        Tree.created (tree.target key).2)), .quiet after) := by
  have hafter : (tree.insert key value).Settled := (Tree.Evolves.put .refl accepted).settled settled
  have accepted' : (tree.insert key value).encode bytes = .ok key := by
    rw [Tree.encode_insert]
    exact accepted
  obtain ⟨j, slot, htarget, hstored, hlength⟩ :=
    Tree.exists_target_insert key value hw settled.size
  have hcontents : (tree.insert key value).contents key = some value := by
    rw [Tree.contents, htarget]
    exact (Node.stored?_eq_some_iff.1 hstored).2
  have hget := exec_get_still (.quiet (tree.insert key value)) rfl hafter.size accepted'
    (hafter.rest.clear key)
  have hdepth := exec_depthOf_still (.quiet (tree.insert key value)) rfl hafter.size accepted'
    (hafter.rest.clear key)
  have htree : (quiet (tree.insert key value)).tree = tree.insert key value := rfl
  simp only [tells_quiet, htree, hcontents, hlength, Option.map_some] at hget hdepth
  exact ⟨_, exec_put_quiet settled accepted value, hget, hdepth⟩

/-- What the searches for a key have in common: the reader gets the value that it found, after the
calls of its walk, and the writer gets its target. -/
structure Agreement (tree : Tree w n V) (bytes : Bytes) (key : Key n) (value : V)
    (walk : Array (Call V)) (found : Option V) (target : Target w) (held free : Run w n V) :
    Prop where
  reads : exec (scripted fun react => find react key) ⟨tree, [], some #[]⟩ =
    some (.ok (found, target.depth), ⟨tree, [], some walk⟩)
  locks : exec (scripted fun react => findLocked react key) ⟨tree, [], some #[]⟩ =
    some (.ok target, held)
  visits : walk.toList = (tree.trail key).flatMap tree.visitCalls
  ends : (tree.trail key).getLast? = some target.lock.node
  sameWalk : held.trace = some (walk ++ (tree.lockCallsAt target.lock.node).toArray)
  deep : tree.layout.HasDepth target.lock.node target.depth
  onlyDepth : tree.layout.Forest →
    ∀ e, tree.layout.HasDepth target.lock.node e → e = target.depth
  tells : (tree.node target.lock.node).Tells target.place found
  /-- The lock is given back without a change. -/
  frees : exec (unlock target.lock) held = some (.ok (), free)
  restores : free.tree = tree
  /-- A key of the configured width is found once it was put, one level deeper in a new node. -/
  readBack : bytes.length ≤ tree.keyWidth →
    ∃ after, exec (put bytes value .own) (.quiet tree) = some (.ok (), .quiet after) ∧
      exec (get? bytes .own) (.quiet after) = some (.ok (some value), .quiet after) ∧
      exec (depthOf? bytes) (.quiet after) =
        some (.ok (some (target.depth + Tree.created target.place)), .quiet after)
  fillsAbove : tree.check = .ok none → ∀ slot, target.place = .fill slot →
    ∀ s k, (tree.node target.lock.node).key? s = some k → k < key
  updatesHeld : tree.check = .ok none → ∀ v, tree.Holds key v →
    ∃ slot, target.place = .update slot

/-- The reader and the writer agree in every tree that nobody else works on, whatever is in it. -/
theorem searches_agree (settled : tree.Settled) (hw : 0 < w) (fits : Key.ofBytes n bytes = .ok key)
    (value : V) : ∃ walk found target held free,
      Agreement tree bytes key value walk found target held free := by
  have clear := settled.rest.clear key
  have hi := Tree.target_lt settled.size key
  have hdepth := (tree.path_target key).hasDepth
  obtain ⟨above, htrail, _⟩ := tree.exists_trail_eq key
  let told (calls : List (Call V)) : Run w n V := ⟨tree, [], some calls.toArray⟩
  have htold (calls : List (Call V)) : Run.tells ⟨tree, [], some #[]⟩ calls = told calls := by
    simp [tells_some, told]
  let locking := tree.walkCalls key ++ tree.lockCallsAt (tree.target key).1
  refine ⟨(tree.walkCalls key).toArray, tree.contents key,
    ⟨⟨(tree.target key).1⟩, (tree.target key).2, (tree.trail key).length⟩,
    (told locking).locked (tree.target key).1,
    (told locking).noted (.unlock (tree.target key).1 (tree.node (tree.target key).1).version), ?_⟩
  constructor
  case reads =>
    rw [exec_scripted, exec_find_still _ rfl settled.size clear, htold]
    rfl
  case locks => rw [exec_scripted, exec_findLocked_still _ rfl settled.size clear, htold]
  case visits => rfl
  case ends => rw [htrail, List.getLast?_concat]
  case sameWalk => exact congrArg some (List.append_toArray _ _).symm
  case deep => exact hdepth
  case onlyDepth => exact fun forest e he => he.depth_unique forest hdepth
  case tells => exact Node.tells_of_routes (tree.routes_target key)
  case frees => exact exec_unlock_locked (told locking) (settled.rest _) hi
  case restores => rfl
  case readBack =>
    intro short
    refine exec_read_back settled hw ?_ value
    rw [Tree.encode, if_pos short, fits]
  case fillsAbove => exact fun checked slot hfill s k hk => Tree.lt_of_target_fill checked hfill hk
  case updatesHeld => exact fun checked v hv => Tree.exists_target_update checked hv

/-- The second slot of the root holds the key, and its first slot is vacant. -/
theorem searches_agree_gap : ∃ walk found target held free,
    Agreement ((Tree.empty 8 : Tree 2 1 Nat).assign root 1 ⟨#v[0x6100000000000000]⟩ 5) [97]
      ⟨#v[0x6100000000000000]⟩ 7 walk found target held free := by
  have settled : ((Tree.empty 8 : Tree 2 1 Nat).assign root 1 ⟨#v[0x6100000000000000]⟩ 5).Settled :=
    ⟨by simp [Tree.empty], fun i => by rw [Tree.version_assign, Tree.node_empty]; rfl, by decide⟩
  exact searches_agree settled (by decide) rfl 7

end Operation

end FanoutIndex
