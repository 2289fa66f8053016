import FanoutIndex.Proofs.Concurrent.Advance
import FanoutIndex.Proofs.Map.Counters

/-!
# What versions count

A put that fills a slot or hangs a child counts one change at that node, and nothing else counts
any. So the word of a version tells how much its node has got since it was created, and a token is
refused exactly when the node has got something since.
-/

namespace FanoutIndex

variable {w n : Nat} {V : Type}

/-- A call on an index, or a search for a place whose lock is given back without a change. -/
inductive LockingCall (n : Nat) (V : Type) where
  | map (call : MapCall V)
  | lockOnly (key : Key n)

namespace LockingCall

def operation : LockingCall n V → Operation w n V Unit
  | map call => do
    let _ ← Operation.outcome call.operation
  | lockOnly key => do
    let target ← Operation.scripted fun react => Operation.findLocked react key
    Operation.unlock target.lock

def performEach : List (LockingCall n V) → Operation w n V Unit
  | [] => return
  | call :: rest => do
    call.operation
    performEach rest

end LockingCall

namespace Face

variable {f g : Face w n}

theorem Gains.size (h : f.Gains g) : g.size = f.size + 1 := by
  cases h with
  | slot vacant => exact size_occupy vacant
  | link missing => exact size_hang missing

theorem size_single (hw : 0 < w) (key : Key n) : (single key : Face w n).size = 1 := by
  have hslots : (Finset.univ.filter fun s : Fin w => ((single key).key s).isSome) = {⟨0, hw⟩} := by
    ext s
    simp [single, Fin.ext_iff, apply_ite]
  rw [size, hslots]
  simp [single]

section Fields

variable {ι α : Type} [Fintype ι] {a b : ι → Option α}

theorem filter_isSome_subset (stays : ∀ i x, a i = some x → b i = some x) :
    (Finset.univ.filter fun i => (a i).isSome) ⊆ Finset.univ.filter fun i => (b i).isSome := by
  intro i hi
  obtain ⟨x, hx⟩ := Option.isSome_iff_exists.1 (Finset.mem_filter.1 hi).2
  simp [stays i x hx]

theorem card_isSome_lt_iff (stays : ∀ i x, a i = some x → b i = some x) :
    (Finset.univ.filter fun i => (a i).isSome).card <
        (Finset.univ.filter fun i => (b i).isSome).card ↔ ∃ i, a i = none ∧ b i ≠ none := by
  constructor
  · intro hlt
    by_contra hnew
    refine Nat.not_le_of_lt hlt (Finset.card_le_card fun i hi => ?_)
    by_contra hold
    exact hnew ⟨i, by simpa using hold, by simpa [Option.isSome_iff_ne_none] using hi⟩
  · rintro ⟨i, ha, hb⟩
    apply Finset.card_lt_card
    rw [Finset.ssubset_iff_of_subset (filter_isSome_subset stays)]
    exact ⟨i, by simpa [Option.isSome_iff_ne_none] using hb, by simp [ha]⟩

end Fields

theorem Grows.size_le (h : f.Grows g) : f.size ≤ g.size :=
  Nat.add_le_add (Finset.card_le_card (filter_isSome_subset h.key))
    (Finset.card_le_card (filter_isSome_subset h.link))

/-- A face that grows has got something if and only if it is larger. -/
theorem Grows.size_lt_iff (h : f.Grows g) : f.size < g.size ↔
    (∃ s, f.key s = none ∧ g.key s ≠ none) ∨ ∃ l, f.link l = none ∧ g.link l ≠ none := by
  have hslots := Finset.card_le_card (filter_isSome_subset h.key)
  have hlinks := Finset.card_le_card (filter_isSome_subset h.link)
  rw [← card_isSome_lt_iff h.key, ← card_isSome_lt_iff h.link, size, size]
  omega

end Face

namespace Node

variable (node : Node w n V)

theorem card_filter_finRange {m : Nat} (p : Fin m → Bool) :
    (Finset.univ.filter fun i => p i).card = (List.finRange m).countP p := by
  rw [List.countP_eq_length_filter, ← List.toFinset_card_of_nodup
    ((List.nodup_finRange m).filter _), List.toFinset_filter, List.toFinset_finRange]

theorem length_children : node.children.length =
    (Finset.univ.filter fun l => (node.face.link l).isSome).card := by
  rw [card_filter_finRange, children, List.length_filterMap_eq_countP]
  congr 1
  funext l
  exact Option.isSome_map

/-- Where there is no gap, the face is as large as the entries and the children are many. -/
theorem size_face (dense : node.face.Dense) :
    node.face.size = node.occupied + node.children.length := by
  have hslots : (Finset.univ.filter fun s => (node.face.key s).isSome) =
      Finset.univ.filter fun s : Fin w => s.val < node.occupied := by
    ext s
    simp [← node.exists_face_key_iff dense, Option.isSome_iff_exists]
  rw [Face.size, hslots, Fin.card_filter_val_lt, min_eq_right node.occupied_le, length_children]

end Node

namespace Tree

/-- Every version counts what its node got: a node that was created for an entry had it from the
start. -/
structure Counting (tree : Tree w n V) : Prop extends tree.Exact where
  words : ∀ i < tree.nodes.size, (tree.node i).version.word.toNat + (if i = root then 0 else 4) =
    4 * (tree.layout i).size

variable {tree : Tree w n V} {key : Key n} {value : V} {i : Nat}

theorem counting_empty {width : Nat} (h : width ≤ Key.capacity n) :
    (empty width : Tree w n V).Counting where
  toExact := exact_empty h
  words := by
    intro i hi
    obtain rfl : i = root := Nat.lt_one_iff.1 hi
    rw [layout_empty, node_empty]
    simp [Face.size, Face.bare]
    rfl

theorem Counting.insert (counting : tree.Counting) (hw : 0 < w) (narrow : 2 * w + 1 < 2 ^ 30)
    {bytes : Bytes} (accepted : tree.encode bytes = .ok key) (value : V) :
    (tree.insert key value).Counting where
  toExact := counting.toExact.insert hw accepted value
  words := by
    intro i hi
    have size := counting.settled.size
    rcases Nat.lt_or_ge i tree.nodes.size with hlt | hge
    · have hword := counting.words i hlt
      rcases insert_counts key value size hlt with ⟨hbump, hgains⟩ | ⟨hsame, hface⟩
      · have hsize := hgains.size
        have hle := Face.size_le ((tree.insert key value).layout i)
        rw [hbump, Version.bumped, UInt32.toNat_add, show Version.counterStep.toNat = 4 from rfl]
        omega
      · rw [hsame, hface]
        exact hword
    · have hne : i ≠ root := by
        rintro rfl
        exact Nat.not_le_of_lt size hge
      have hnode := node_insert_of_ge size hi hge
      rw [layout, hnode, version_ofEntry, if_neg hne, Node.face_ofEntry, Face.size_single hw]
      rfl

theorem Counting.size_face (counting : tree.Counting) (i : Nat) :
    (tree.layout i).size = (tree.node i).occupied + (tree.node i).children.length :=
  (tree.node i).size_face counting.sound.dense

end Tree

namespace Operation

variable {tree : Tree w n V}

/-- A lock that is given back without a change leaves no trace. -/
theorem exec_lockOnly (settled : tree.Settled) (key : Key n) :
    exec (LockingCall.lockOnly key).operation (.quiet tree) = some (.ok (), .quiet tree) := by
  obtain ⟨d, hfind⟩ := exec_findLocked_quiet settled (Run.quiet tree).script.length key
  have hscripted := (exec_scripted (fun react => findLocked react key) _).trans hfind
  rw [LockingCall.operation, exec_bind_ok hscripted,
    exec_unlock_locked (.quiet tree) (settled.rest _) (Tree.target_lt settled.size key)]
  rfl

/-- A call keeps the versions counting, and takes nothing back. -/
theorem exec_operation_counting (counting : tree.Counting) (hw : 0 < w)
    (narrow : 2 * w + 1 < 2 ^ 30) (call : LockingCall n V) :
    ∃ after, exec call.operation (.quiet tree) = some (.ok (), .quiet after) ∧ after.Counting ∧
      tree.layout.Grows after.layout ∧ tree.nodes.size ≤ after.nodes.size := by
  cases call with
  | lockOnly key =>
    exact ⟨tree, exec_lockOnly counting.settled key, counting, .refl _, Nat.le_refl _⟩
  | map call =>
    obtain ⟨reply, after, hcall, heffect⟩ := exec_operation_insert counting.settled call
    refine ⟨after, exec_bind_ok (exec_outcome hcall), ?_⟩
    rcases heffect with ⟨rfl, _⟩ | ⟨bytes, key, value, accepted, rfl, _⟩
    · exact ⟨counting, .refl _, Nat.le_refl _⟩
    · exact ⟨counting.insert hw narrow accepted value, Tree.grows_insert counting.settled.size,
        (Tree.size_insert_le key value counting.settled.size).1⟩

theorem exec_performEach_counting (counting : tree.Counting) (hw : 0 < w)
    (narrow : 2 * w + 1 < 2 ^ 30) (calls : List (LockingCall n V)) :
    ∃ after, exec (LockingCall.performEach calls) (.quiet tree) = some (.ok (), .quiet after) ∧
      after.Counting ∧ tree.layout.Grows after.layout ∧ tree.nodes.size ≤ after.nodes.size := by
  induction calls generalizing tree with
  | nil => exact ⟨tree, rfl, counting, .refl _, Nat.le_refl _⟩
  | cons call rest ih =>
    obtain ⟨mid, hcall, hmid, hgrows, hsize⟩ := exec_operation_counting counting hw narrow call
    obtain ⟨after, hrest, hafter, hgrows', hsize'⟩ := ih hmid
    exact ⟨after, (exec_bind_ok hcall).trans hrest, hafter, hgrows.trans hgrows',
      hsize.trans hsize'⟩

theorem exec_route_quiet (settled : tree.Settled) {i : Nat} (hi : i < tree.nodes.size)
    (key : Key n) :
    exec (scripted fun react => route react key i) (.quiet tree) =
      some (.ok ((tree.node i).route key, (tree.node i).version.word), .quiet tree) := by
  obtain ⟨token, after, calls, hexec, hpass, htoken⟩ :=
    exec_route key (reacts_interfere 0) (Run.ready_quiet settled) hi (Nat.le_refl 0)
  cases hpass.eq_quiet
  subst htoken
  rw [exec_scripted]
  exact hexec

theorem exec_hasChanged_quiet (tree : Tree w n V) (i : Nat) (token : Token) :
    exec (scripted fun react => hasChanged react i token) (.quiet tree) =
      some (.ok ((tree.node i).version.hasChanged token), .quiet tree) := by
  rw [exec_scripted, hasChanged,
    exec_bind_ok (exec_disturbed_of_script_nil _ _ _ i rfl), exec_bind_ok (exec_version _ i),
    Bool.false_or]
  rfl

/-- The version of a node counts the slots and children that the node got, the entry that it was
created with left out. So it is at rest after every call, its counter never comes round, and a token
that a scan of the node returned is refused later on if and only if the node has got a slot or a
child since. -/
theorem versions_count_gains {config : Config} {start : Tree w n V} (hw : 0 < w)
    (narrow : 2 * w + 1 < 2 ^ 30) (built : Tree.ofConfig config = .ok start)
    (earlier later : List (LockingCall n V)) :
    ∃ mid last,
      exec (LockingCall.performEach earlier) (.quiet start) = some (.ok (), .quiet mid) ∧
      exec (LockingCall.performEach later) (.quiet mid) = some (.ok (), .quiet last) ∧
      ∀ i < mid.nodes.size,
        (mid.node i).version.isBusy = false ∧
        ((mid.node i).version.word.toNat : ℤ) =
          4 * ((mid.node i).occupied - (if i = root then 0 else 1) + (mid.node i).children.length) ∧
        ∀ key, ∃ token changed,
          exec (scripted fun react => route react key i) (.quiet mid) =
            some (.ok ((mid.node i).route key, token), .quiet mid) ∧
          exec (scripted fun react => hasChanged react i token) (.quiet last) =
            some (.ok changed, .quiet last) ∧
          (changed = true ↔
            (∃ slot, (mid.node i).key? slot = none ∧ (last.node i).key? slot ≠ none) ∨
              ∃ link : Fin (w + 1),
                (mid.node i).links.get link = none ∧ (last.node i).links.get link ≠ none) := by
  obtain ⟨width, hle, rfl⟩ := Tree.eq_empty_of_ofConfig built
  obtain ⟨mid, hmid, counting, _, _⟩ :=
    exec_performEach_counting (Tree.counting_empty hle) hw narrow earlier
  obtain ⟨last, hlast, counting', hgrows, hsize⟩ :=
    exec_performEach_counting counting hw narrow later
  refine ⟨mid, last, hmid, hlast, fun i hi => ?_⟩
  have hword := counting.words i hi
  have hword' := counting'.words i (hi.trans_le hsize)
  have hsize := counting.size_face i
  refine ⟨counting.settled.rest i, ?_, fun key => ⟨_, _,
    exec_route_quiet counting.settled hi key, exec_hasChanged_quiet last i _, ?_⟩⟩
  · split_ifs at hword ⊢ <;> omega
  · have hle := Face.size_le (last.layout i)
    refine Iff.trans ?_ (hgrows i).size_lt_iff
    have hgrown := (hgrows i).size_le
    rw [Version.hasChanged, bne_iff_ne, ne_eq, ← UInt32.toNat_inj]
    omega

/-- Locks that are given back and replaced values count nothing; the key that is put last is hung
below the root, which refuses the tokens that it gave before. -/
theorem versions_count_gains_hung :
    ∃ mid last,
      exec (LockingCall.performEach [.map (.put [98] 1 .own),
        .lockOnly ⟨#v[0x6100000000000000]⟩, .map (.get [98] .own)])
          (.quiet (Tree.empty 8 : Tree 1 1 Nat)) = some (.ok (), .quiet mid) ∧
      exec (LockingCall.performEach [.map (.put [98] 2 .own), .map (.put [97] 3 .own)])
        (.quiet mid) = some (.ok (), .quiet last) ∧
      ∀ i < mid.nodes.size,
        (mid.node i).version.isBusy = false ∧
        ((mid.node i).version.word.toNat : ℤ) =
          4 * ((mid.node i).occupied - (if i = root then 0 else 1) + (mid.node i).children.length) ∧
        ∀ key, ∃ token changed,
          exec (scripted fun react => route react key i) (.quiet mid) =
            some (.ok ((mid.node i).route key, token), .quiet mid) ∧
          exec (scripted fun react => hasChanged react i token) (.quiet last) =
            some (.ok changed, .quiet last) ∧
          (changed = true ↔
            (∃ slot, (mid.node i).key? slot = none ∧ (last.node i).key? slot ≠ none) ∨
              ∃ link : Fin 2,
                (mid.node i).links.get link = none ∧ (last.node i).links.get link ≠ none) :=
  versions_count_gains (by decide) (by norm_num)
    (show Tree.ofConfig ({} : Config) = .ok (Tree.empty 8 : Tree 1 1 Nat) from rfl) _ _

end Operation

end FanoutIndex
