import FanoutIndex.Proofs.Version.Token

/-!
# Guarded versions

A version tells three things: whether a guard holds its lock, whether that guard marked a change,
and how many changes were counted, in 30 bits. `Version.ofGuard` is the version that tells them, and
each operation on versions is stated here for it.
-/

namespace FanoutIndex

namespace Version

def guardBits : Option Bool → Nat
  | none => 0
  | some false => 1
  | some true => 3

/-- The version of a node whose lock is free, or held by a guard that was marked or not, after a
number of changes. -/
def ofGuard (guard : Option Bool) (count : Nat) : Version :=
  ⟨UInt32.ofNat (4 * count + guardBits guard)⟩

variable {v : Version} {guard : Option Bool} {isMarked : Bool} {count earlier : Nat}

theorem guardBits_lt (guard : Option Bool) : guardBits guard < 4 := by
  rcases guard with _ | _ | _ <;> decide

theorem toNat_ofGuard (guard : Option Bool) (count : Nat) :
    (ofGuard guard count).word.toNat = 4 * (count % 2 ^ 30) + guardBits guard := by
  have hlt := guardBits_lt guard
  simp only [ofGuard, UInt32.toNat_ofNat']
  omega

@[simp]
theorem changes_ofGuard (guard : Option Bool) (count : Nat) :
    (ofGuard guard count).changes = count % 2 ^ 30 := by
  have hlt := guardBits_lt guard
  rw [changes_eq, toNat_ofGuard]
  omega

@[simp]
theorem isLocked_ofGuard (guard : Option Bool) (count : Nat) :
    (ofGuard guard count).isLocked = guard.isSome := by
  rw [Bool.eq_iff_iff, isLocked_iff, toNat_ofGuard]
  rcases guard with _ | _ | _ <;> simp [guardBits] <;> omega

@[simp]
theorem isInserting_ofGuard (guard : Option Bool) (count : Nat) :
    (ofGuard guard count).isInserting = (guard == some true) := by
  rw [Bool.eq_iff_iff, isInserting_iff, toNat_ofGuard]
  rcases guard with _ | _ | _ <;> simp [guardBits] <;> omega

@[simp]
theorem isBusy_ofGuard (guard : Option Bool) (count : Nat) :
    (ofGuard guard count).isBusy = guard.isSome := by
  rw [Bool.eq_iff_iff, isBusy_iff, toNat_ofGuard]
  rcases guard with _ | _ | _ <;> simp [guardBits]

theorem isHeld_ofGuard (isMarked : Bool) (count : Nat) :
    (ofGuard (some isMarked) count).IsHeld isMarked := by
  refine ⟨isLocked_ofGuard _ _, ?_⟩
  cases isMarked <;> simp

theorem eq_ofGuard (rest : v.isBusy = false) : v = ofGuard none v.changes := by
  have hlt := v.changes_lt
  rw [isBusy_eq_false_iff] at rest
  apply ext_toNat
  rw [toNat_ofGuard, changes_eq] at *
  simp only [guardBits]
  omega

theorem stable?_ofGuard_none (count : Nat) :
    (ofGuard none count).stable? = some (ofGuard none count).word :=
  stable?_eq_some_iff.2 ⟨isBusy_ofGuard none count, rfl⟩

theorem stable?_ofGuard_some (isMarked : Bool) (count : Nat) :
    (ofGuard (some isMarked) count).stable? = none := by
  simp [stable?]

theorem locked_ofGuard (count : Nat) : (ofGuard none count).locked = ofGuard (some false) count := by
  apply ext_toNat
  rw [toNat_locked (isBusy_ofGuard none count), toNat_ofGuard, toNat_ofGuard]
  rfl

theorem tryLock?_ofGuard_none (count : Nat) :
    (ofGuard none count).tryLock? = some (ofGuard (some false) count) := by
  simp [tryLock?, locked_ofGuard]

theorem tryLock?_ofGuard_some (isMarked : Bool) (count : Nat) :
    (ofGuard (some isMarked) count).tryLock? = none := by
  simp [tryLock?]

/-- Two versions are the same if they are held alike and tell the same count. -/
theorem ext_isHeld {a b : Version} (ha : a.IsHeld isMarked) (hb : b.IsHeld isMarked)
    (h : a.changes = b.changes) : a = b := by
  have hlock := isLocked_iff.1 ha.1
  have hlock' := isLocked_iff.1 hb.1
  rw [changes_eq, changes_eq] at h
  apply ext_toNat
  cases isMarked with
  | false =>
    have hmark := isInserting_eq_false_iff.1 ha.2
    have hmark' := isInserting_eq_false_iff.1 hb.2
    omega
  | true =>
    have hmark := isInserting_iff.1 ha.2
    have hmark' := isInserting_iff.1 hb.2
    omega

theorem markInsert_ofGuard (isMarked : Bool) (count : Nat) :
    (ofGuard (some isMarked) count).markInsert = .ok (ofGuard (some true) count) := by
  have held := isHeld_ofGuard isMarked count
  have hmark := markInsert_of_isLocked held.1
  obtain ⟨held', hcount⟩ := isHeld_of_markInsert held hmark
  have hsame := ext_isHeld held' (isHeld_ofGuard true count) (by simp [hcount])
  rw [hmark, hsame]

theorem unlock_ofGuard (isMarked : Bool) (count : Nat) :
    (ofGuard (some isMarked) count).unlock = .ok (ofGuard none (count + isMarked.toNat)) := by
  have held := isHeld_ofGuard isMarked count
  have hunlock := unlock_of_isLocked held.1
  obtain ⟨rest, hcount⟩ := rest_of_unlock held hunlock
  rw [hunlock, eq_ofGuard rest, hcount, changes_ofGuard]
  congr 1
  apply ext_toNat
  simp only [toNat_ofGuard]
  omega

/-- A token is refused unless the lock is free and the counter is where it was. -/
theorem hasChanged_ofGuard :
    (ofGuard guard count).hasChanged (ofGuard none earlier).word = false ↔
      guard = none ∧ count % 2 ^ 30 = earlier % 2 ^ 30 := by
  rw [hasChanged_eq_false_iff, ← UInt32.toNat_inj, toNat_ofGuard, toNat_ofGuard]
  rcases guard with _ | _ | _ <;> simp [guardBits] <;> omega

/-- The guard that holds the lock is refused a token unless it was not marked and the counter is
where it was. -/
theorem hasChangedLocked_ofGuard :
    (ofGuard (some isMarked) count).hasChangedLocked (ofGuard none earlier).word = false ↔
      isMarked = false ∧ count % 2 ^ 30 = earlier % 2 ^ 30 := by
  rw [hasChangedLocked_eq_false_iff, toNat_ofGuard, toNat_ofGuard]
  cases isMarked <;> simp [guardBits] <;> omega

end Version

end FanoutIndex
