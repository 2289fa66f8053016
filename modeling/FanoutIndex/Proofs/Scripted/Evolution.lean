import FanoutIndex.Access.Call
import FanoutIndex.Proofs.Tree.Insert

/-!
# Evolution of trees

While an operation runs, other clients put keys and count changes of nodes. A tree evolves by such
changes, each applied whole. A node whose version word is the same after fewer than `2 ^ 30` changes
has the same face: every change of the face is counted, and the counter has not come round.
-/

namespace FanoutIndex

variable {w n : Nat} {V : Type}

/-- What another client does to a tree. -/
inductive Change (V : Type) where
  | put (key : Bytes) (value : V)
  | bump (node : Nat)
  deriving DecidableEq

/-- The change that a call in a trace reports as completed. -/
def Call.change? : Call V → Option (Change V)
  | .endPut key value => some (.put key value)
  | .bump node true => some (.bump node)
  | _ => none

def changesOf (calls : List (Call V)) : List (Change V) := calls.filterMap Call.change?

@[simp]
theorem changesOf_append (a b : List (Call V)) : changesOf (a ++ b) = changesOf a ++ changesOf b :=
  List.filterMap_append

/-- One slot is filled or one child is hung. -/
inductive Face.Gains (f : Face w n) : Face w n → Prop
  | slot {s : Fin w} {k : Key n} (vacant : f.key s = none) : Gains f (f.occupy s k)
  | link {l : Fin (w + 1)} {c : Nat} (missing : f.link l = none) : Gains f (f.hang l c)

namespace Tree

/-- One tree becomes another by changes made one after the other. -/
inductive Evolves (start : Tree w n V) : List (Change V) → Tree w n V → Prop
  | refl : Evolves start [] start
  | put {changes : List (Change V)} {tree : Tree w n V} {key : Bytes} {encoded : Key n} {value : V}
      (before : Evolves start changes tree) (accepted : tree.encode key = .ok encoded) :
      Evolves start (changes ++ [.put key value]) (tree.insert encoded value)
  | bump {changes : List (Change V)} {tree : Tree w n V} {i : Nat}
      (before : Evolves start changes tree) (known : i < tree.nodes.size) :
      Evolves start (changes ++ [.bump i]) (tree.bump i)

variable {start tree final : Tree w n V} {changes others : List (Change V)} {i : Nat}

theorem Evolves.trans (first : start.Evolves changes tree) (second : tree.Evolves others final) :
    start.Evolves (changes ++ others) final := by
  induction second with
  | refl => rwa [List.append_nil]
  | put _ accepted ih =>
    rw [← List.append_assoc]
    exact .put ih accepted
  | bump _ known ih =>
    rw [← List.append_assoc]
    exact .bump ih known

theorem Evolves.eq_of_nil (h : start.Evolves [] tree) : tree = start := by
  generalize hnil : ([] : List (Change V)) = changes at h
  cases h with
  | refl => rfl
  | put _ _ => simp at hnil
  | bump _ _ => simp at hnil

theorem Evolves.keyWidth (h : start.Evolves changes tree) : tree.keyWidth = start.keyWidth := by
  induction h with
  | refl => rfl
  | put _ _ ih => rw [keyWidth_insert, ih]
  | bump _ _ ih => exact ih

theorem Evolves.size (h : start.Evolves changes tree) (size : 0 < start.nodes.size) :
    start.nodes.size ≤ tree.nodes.size ∧
      tree.nodes.size ≤ start.nodes.size + changes.length := by
  induction h with
  | refl => simp
  | @put _ t key encoded value _ _ ih =>
    have hpos : 0 < t.nodes.size := by omega
    have hsize := size_insert_le encoded value hpos
    simp only [List.length_append, List.length_singleton]
    omega
  | bump _ _ ih =>
    rw [size_bump]
    simp only [List.length_append, List.length_singleton]
    omega

theorem AtRest.bump (rest : tree.AtRest) : (tree.bump i).AtRest := by
  intro j
  rw [node_bump]
  split_ifs
  · exact Version.isBusy_bumped (rest j)
  · exact rest j

theorem Evolves.atRest (h : start.Evolves changes tree) (size : 0 < start.nodes.size)
    (rest : start.AtRest) : tree.AtRest := by
  induction h with
  | refl => exact rest
  | put before _ ih => exact ih.insert ((before.size size).1.trans_lt' size)
  | bump _ _ ih => exact ih.bump

/-- A tree that nobody works on: it has a root, no version is busy, and its keys can be encoded. -/
structure Settled (tree : Tree w n V) : Prop where
  size : 0 < tree.nodes.size
  rest : tree.AtRest
  width : tree.keyWidth ≤ Key.capacity n

theorem Evolves.settled (h : start.Evolves changes tree) (settled : start.Settled) :
    tree.Settled where
  size := (h.size settled.size).1.trans_lt' settled.size
  rest := h.atRest settled.size settled.rest
  width := by
    rw [h.keyWidth]
    exact settled.width

theorem Evolves.grows (h : start.Evolves changes tree) (size : 0 < start.nodes.size) :
    start.layout.Grows tree.layout := by
  induction h with
  | refl => exact Layout.Grows.refl _
  | put before _ ih => exact ih.trans (grows_insert ((before.size size).1.trans_lt' size))
  | bump _ _ ih => rwa [layout_bump]

theorem Evolves.sound (h : start.Evolves changes tree) (size : 0 < start.nodes.size)
    (sound : start.layout.Sound) : tree.layout.Sound := by
  induction h with
  | refl => exact sound
  | put before _ ih => exact sound_insert ((before.size size).1.trans_lt' size) ih
  | bump _ _ ih => rwa [layout_bump]

/-- The version word that has counted some more changes. -/
def advanced (word : UInt32) (count : Nat) : UInt32 := word + UInt32.ofNat (4 * count)

theorem advanced_zero (word : UInt32) : advanced word 0 = word := by
  simp [advanced]

theorem advanced_succ (word : UInt32) (count : Nat) :
    advanced word (count + 1) = advanced word count + Version.counterStep := by
  simp only [advanced, Nat.mul_succ, UInt32.ofNat_add, UInt32.add_assoc]
  rfl

theorem advanced_add (word : UInt32) (a b : Nat) :
    advanced (advanced word a) b = advanced word (a + b) := by
  simp only [advanced, Nat.mul_add, UInt32.ofNat_add, UInt32.add_assoc]

theorem eq_zero_of_advanced_eq {word : UInt32} {count : Nat} (h : advanced word count = word)
    (few : count < 2 ^ 30) : count = 0 := by
  have hlt := word.toNat_lt
  have h := congrArg UInt32.toNat h
  simp only [advanced, UInt32.toNat_add, UInt32.toNat_ofNat'] at h
  omega

/-- An insertion counts at a node that gets a slot or a child, and leaves the face of any other as
it is. -/
theorem insert_counts (key : Key n) (value : V) (size : 0 < tree.nodes.size)
    (hi : i < tree.nodes.size) :
    ((tree.insert key value).node i).version = (tree.node i).version.bumped ∧
        (tree.layout i).Gains ((tree.insert key value).layout i) ∨
      ((tree.insert key value).node i).version = (tree.node i).version ∧
        (tree.insert key value).layout i = tree.layout i := by
  obtain ⟨d, path, hend⟩ := tree.target_end key
  have ht := target_lt size key
  rw [insert, version_change _ ht hi]
  by_cases hti : (tree.target key).1 = i
  · rw [hti] at hend
    cases hplace : (tree.target key).2 with
    | update slot =>
      right
      rw [hplace] at hend
      simp [hti, layout_change_update hi hend]
    | fill slot =>
      left
      rw [hplace] at hend
      rw [hti, layout_change_fill hi, Layout.occupy_self]
      exact ⟨by simp, .slot hend.2⟩
    | attach link =>
      left
      rw [hplace] at hend
      rw [hti, layout_change_attach hi, Layout.hang_self, create_of_ne hi]
      exact ⟨by simp, .link hend.2⟩
  · right
    refine ⟨by simp [hti], ?_⟩
    cases hplace : (tree.target key).2 with
    | update slot =>
      rw [hplace] at hend
      rw [layout_change_update ht hend]
    | fill slot => rw [layout_change_fill ht, Layout.occupy_of_ne (Ne.symm hti)]
    | attach link =>
      rw [layout_change_attach ht, Layout.hang_of_ne (Ne.symm hti), create_of_ne hi]

/-- The word of a version tells how many changes were counted, and if there were none the face is
as before. -/
theorem Evolves.counts (h : start.Evolves changes tree) (hi : i < start.nodes.size) :
    ∃ count ≤ changes.length,
      (tree.node i).version.word = advanced (start.node i).version.word count ∧
        (count = 0 → tree.layout i = start.layout i) := by
  have size : 0 < start.nodes.size := Nat.zero_lt_of_lt hi
  induction h with
  | refl => exact ⟨0, Nat.le_refl 0, (advanced_zero _).symm, fun _ => rfl⟩
  | @put _ t key encoded value before _ ih =>
    obtain ⟨count, hle, hword, hface⟩ := ih
    have hi' := hi.trans_le (before.size size).1
    rcases insert_counts encoded value (Nat.zero_lt_of_lt hi') hi' with
      ⟨hbump, _⟩ | ⟨hsame, hlayout⟩
    · refine ⟨count + 1, by simp [hle], ?_, fun h => absurd h (Nat.succ_ne_zero _)⟩
      rw [hbump, Version.bumped, hword, advanced_succ]
    · refine ⟨count, by simp; omega, by rw [hsame, hword], ?_⟩
      intro h0
      rw [hlayout, hface h0]
  | @bump _ t j before known ih =>
    obtain ⟨count, hle, hword, hface⟩ := ih
    by_cases hij : j = i
    · subst hij
      refine ⟨count + 1, by simp [hle], ?_, fun h => absurd h (Nat.succ_ne_zero _)⟩
      rw [node_bump, if_pos ⟨rfl, known⟩, Node.setVersion, Version.bumped, hword, advanced_succ]
    · refine ⟨count, by simp; omega, ?_, ?_⟩
      · rw [node_bump, if_neg (fun h => hij h.1), hword]
      · intro h0
        rw [layout_bump, hface h0]

/-- A version word that is the same as before vouches for the face of its node. -/
theorem Evolves.face_eq (h : start.Evolves changes tree) (hi : i < start.nodes.size)
    (few : changes.length < 2 ^ 30)
    (same : (tree.node i).version.word = (start.node i).version.word) :
    tree.layout i = start.layout i := by
  obtain ⟨count, hle, hword, hface⟩ := h.counts hi
  exact hface (eq_zero_of_advanced_eq (hword.symm.trans same) (hle.trans_lt few))

end Tree

end FanoutIndex
