import FanoutIndex.Proofs.Version.Word

/-!
# Tokens

The changes of a version are only ever counted up, and a mark goes away only when its change is
counted. So a token that is current after some steps was current before them.
-/

namespace FanoutIndex

namespace Version

/-- The token was taken of the version at rest, now or earlier. -/
def Issued (v : Version) (token : Token) : Prop :=
  token.toNat % 4 = 0 ∧ token.toNat / 4 ≤ v.changes

/-- No change was counted or marked since the token was taken. -/
def IsCurrent (v : Version) (token : Token) : Prop :=
  v.isInserting = false ∧ v.changes = token.toNat / 4

def IsHeld (v : Version) (isMarked : Bool) : Prop :=
  v.isLocked = true ∧ v.isInserting = isMarked

/-- Changes are counted and marks are not lost. -/
structure Advances (before after : Version) : Prop where
  counted : before.changes ≤ after.changes
  cleared : before.isInserting = true → after.isInserting = false →
    before.changes < after.changes

variable {v before after : Version} {token : Token}

theorem Advances.refl (v : Version) : v.Advances v where
  counted := Nat.le_refl _
  cleared := by
    intro hyes hno
    rw [hyes] at hno
    cases hno

theorem isInserting_eq_false_iff : v.isInserting = false ↔ v.word.toNat / 2 % 2 = 0 := by
  rw [← Bool.not_eq_true, isInserting_iff]
  omega

theorem isLocked_eq_false_iff : v.isLocked = false ↔ v.word.toNat % 2 = 0 := by
  rw [← Bool.not_eq_true, isLocked_iff]
  omega

theorem isLocked_of_not_busy (rest : v.isBusy = false) : v.isLocked = false := by
  rw [isBusy_eq_false_iff] at rest
  rw [isLocked_eq_false_iff]
  omega

theorem isInserting_of_not_busy (rest : v.isBusy = false) : v.isInserting = false := by
  rw [isBusy_eq_false_iff] at rest
  rw [isInserting_eq_false_iff]
  omega

theorem issued_of_rest (rest : v.isBusy = false) : v.Issued v.word := by
  rw [isBusy_eq_false_iff] at rest
  exact ⟨rest, Nat.le_of_eq v.changes_eq.symm⟩

theorem Issued.advances (h : before.Issued token) (a : before.Advances after) :
    after.Issued token :=
  ⟨h.1, h.2.trans a.counted⟩

theorem IsCurrent.of_advances (h : after.IsCurrent token) (issued : before.Issued token)
    (a : before.Advances after) : before.IsCurrent token := by
  have hcounted := a.counted
  have hissued := issued.2
  have hchanges := h.2
  refine ⟨?_, by omega⟩
  cases hmark : before.isInserting with
  | false => rfl
  | true =>
    have := a.cleared hmark h.1
    omega

theorem IsCurrent.of_hasChanged (issued : v.Issued token) (h : v.hasChanged token = false) :
    v.IsCurrent token := by
  rw [hasChanged_eq_false_iff] at h
  subst h
  have hmod := issued.1
  refine ⟨?_, v.changes_eq⟩
  rw [isInserting_eq_false_iff]
  omega

theorem IsCurrent.of_hasChangedLocked (issued : v.Issued token)
    (h : v.hasChangedLocked token = false) : v.IsCurrent token := by
  rw [hasChangedLocked_eq_false_iff] at h
  have hmod := issued.1
  refine ⟨?_, ?_⟩
  · rw [isInserting_eq_false_iff]
    omega
  · rw [changes_eq]
    omega

section Lock

variable (rest : before.isBusy = false)

include rest

theorem changes_locked : before.locked.changes = before.changes := by
  have hword := toNat_locked rest
  rw [isBusy_eq_false_iff] at rest
  rw [changes_eq, changes_eq, hword]
  omega

theorem isHeld_locked : before.locked.IsHeld false :=
  ⟨isLocked_locked rest, isInserting_locked rest⟩

theorem advances_locked : before.Advances before.locked where
  counted := (changes_locked rest).ge
  cleared := by
    intro hyes
    rw [isInserting_of_not_busy rest] at hyes
    cases hyes

end Lock

section Mark

theorem word_of_isHeld_false (held : before.IsHeld false) : before.word.toNat % 4 = 1 := by
  have hlock := isLocked_iff.1 held.1
  have hmark := isInserting_eq_false_iff.1 held.2
  omega

theorem markInsert_of_isLocked (h : before.isLocked = true) :
    before.markInsert = .ok ⟨before.word ||| insertingBit⟩ := if_pos h

theorem toNat_markInsert (held : before.IsHeld false) (h : before.markInsert = .ok after) :
    after.word.toNat = before.word.toNat + 2 := by
  rw [markInsert_of_isLocked held.1] at h
  cases h
  exact toNat_marked (word_of_isHeld_false held)

theorem isHeld_markInsert (held : before.IsHeld false) (h : before.markInsert = .ok after) :
    after.IsHeld true := by
  have hword := toNat_markInsert held h
  have hmod := word_of_isHeld_false held
  constructor
  · rw [isLocked_iff]
    omega
  · rw [isInserting_iff]
    omega

theorem changes_markInsert (held : before.IsHeld false) (h : before.markInsert = .ok after) :
    after.changes = before.changes := by
  have hword := toNat_markInsert held h
  have hmod := word_of_isHeld_false held
  rw [changes_eq, changes_eq]
  omega

theorem advances_markInsert (held : before.IsHeld false) (h : before.markInsert = .ok after) :
    before.Advances after where
  counted := (changes_markInsert held h).ge
  cleared := by
    intro hyes
    rw [held.2] at hyes
    cases hyes

end Mark

section Unlock

theorem unlock_of_isLocked (h : before.isLocked = true) : before.unlock = .ok before.released :=
  if_pos h

theorem released_eq_of_unlock (h : before.unlock = .ok after) : after = before.released := by
  rw [unlock] at h
  split_ifs at h
  cases h
  rfl

/-- Unlocking counts a marked change, as long as the counter has room. -/
theorem changes_unlock (h : before.unlock = .ok after)
    (room : before.isInserting = true → before.changes + 1 < 2 ^ 30) :
    after.changes = before.changes + if before.isInserting then 1 else 0 := by
  rw [released_eq_of_unlock h, changes_eq]
  cases hmark : before.isInserting with
  | true =>
    have hroom := room hmark
    rw [toNat_released_of_isInserting hmark, if_pos rfl]
    omega
  | false =>
    have hword := isInserting_eq_false_iff.1 hmark
    rw [toNat_released_of_not_isInserting hmark, changes_eq]
    simp only [Bool.false_eq_true, if_false]
    omega

theorem advances_unlock (h : before.unlock = .ok after)
    (room : before.isInserting = true → before.changes + 1 < 2 ^ 30) : before.Advances after where
  counted := by
    rw [changes_unlock h room]
    exact Nat.le_add_right _ _
  cleared := by
    intro hyes _
    rw [changes_unlock h room, hyes]
    exact Nat.lt_succ_self _

end Unlock

section Held

variable {marked unlocked : Version} {isMarked : Bool}

theorem changes_lt (v : Version) : v.changes < 2 ^ 30 := by
  have hlt := v.word.toNat_lt
  rw [changes_eq]
  omega

theorem markInsert_of_isHeld_true (held : v.IsHeld true) : v.markInsert = .ok v := by
  have hlock := isLocked_iff.1 held.1
  have hmark := isInserting_iff.1 held.2
  have hparts := Nat.two_pow_add_eq_or_of_lt (show 3 < 2 ^ 2 by omega) (v.word.toNat / 4)
  have hword : v.word.toNat = 2 ^ 2 * (v.word.toNat / 4) + 3 := by omega
  rw [markInsert_of_isLocked held.1]
  congr 1
  apply ext_toNat
  rw [UInt32.toNat_or, hword, hparts, Nat.or_assoc]
  rfl

theorem isHeld_of_markInsert (held : v.IsHeld isMarked) (h : v.markInsert = .ok marked) :
    marked.IsHeld true ∧ marked.changes = v.changes := by
  cases isMarked with
  | false => exact ⟨isHeld_markInsert held h, changes_markInsert held h⟩
  | true =>
    obtain rfl := Except.ok.inj (h.symm.trans (markInsert_of_isHeld_true held))
    exact ⟨held, rfl⟩

/-- Unlocking leaves a version at rest, and counts a marked change in 30 bits. -/
theorem rest_of_unlock (held : v.IsHeld isMarked) (h : v.unlock = .ok unlocked) :
    unlocked.isBusy = false ∧ unlocked.changes = (v.changes + isMarked.toNat) % 2 ^ 30 := by
  have hlt := v.word.toNat_lt
  have hlock := isLocked_iff.1 held.1
  rw [released_eq_of_unlock h, isBusy_eq_false_iff, changes_eq]
  cases isMarked with
  | false =>
    have hmark := isInserting_eq_false_iff.1 held.2
    rw [toNat_released_of_not_isInserting held.2, changes_eq, Bool.toNat_false]
    omega
  | true =>
    rw [toNat_released_of_isInserting held.2, Bool.toNat_true]
    omega

theorem isBusy_of_isHeld (held : v.IsHeld isMarked) : v.isBusy = true := isBusy_of_isLocked held.1

end Held

end Version

end FanoutIndex
