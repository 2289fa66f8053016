import Mathlib
import FanoutIndex.Version.Basic

/-!
# Version words as numbers

A version word is four times the number of counted changes, plus two while a change is marked, plus
one while the lock is held. Each operation on versions is stated here for these numbers.
-/

namespace FanoutIndex

theorem toNat_and_not (a mask : UInt32) {k : Nat} (hk : k ≤ 32) (hm : mask.toNat = 2 ^ k - 1) :
    (a &&& ~~~mask).toNat = a.toNat / 2 ^ k * 2 ^ k := by
  have hlt : 2 ^ k - 1 < 2 ^ 32 := by
    have hle := Nat.pow_le_pow_right (show 0 < 2 by omega) hk
    have hpos := Nat.pow_pos (n := k) (show 0 < 2 by omega)
    omega
  have hnot : UInt32.size - 1 - (2 ^ k - 1) = 2 ^ 32 - (2 ^ k - 1 + 1) := by
    simp [UInt32.size]
  rw [UInt32.toNat_and, UInt32.toNat_not, hm, hnot]
  apply Nat.eq_of_testBit_eq
  intro i
  rw [Nat.testBit_and, Nat.testBit_two_pow_sub_succ hlt, ← Nat.shiftLeft_eq,
    ← Nat.shiftRight_eq_div_pow, Nat.testBit_shiftLeft, Nat.testBit_shiftRight,
    Nat.testBit_two_pow_sub_one]
  by_cases hi : i < k
  · simp [hi]
  · have hki : k + (i - k) = i := by omega
    by_cases h32 : i < 32
    · simp [hi, hki, h32, Nat.le_of_not_lt hi]
    · have hzero : a.toNat.testBit i = false :=
        Nat.testBit_lt_two_pow (a.toNat_lt.trans_le (Nat.pow_le_pow_right (by omega) (by omega)))
      simp [hki, hzero]

/-- Setting one bit that is not set, above bits that are known. -/
theorem or_two_pow_of_mod {x k : Nat} (h : x % 2 ^ (k + 1) < 2 ^ k) : x ||| 2 ^ k = x + 2 ^ k := by
  have hx := Nat.div_add_mod x (2 ^ (k + 1))
  generalize x / 2 ^ (k + 1) = q at hx
  generalize x % 2 ^ (k + 1) = r at hx h
  have hlow : 2 ^ k + r = 2 ^ k ||| r := by simpa using Nat.two_pow_add_eq_or_of_lt h 1
  have hsum : 2 ^ k + r < 2 ^ (k + 1) := by rw [Nat.pow_succ]; omega
  have hhigh := Nat.two_pow_add_eq_or_of_lt hsum q
  have hparts := Nat.two_pow_add_eq_or_of_lt (show r < 2 ^ (k + 1) by omega) q
  calc x ||| 2 ^ k = 2 ^ (k + 1) * q ||| (2 ^ k ||| r) := by
        rw [← hx, hparts, Nat.or_assoc, Nat.or_comm r]
    _ = x + 2 ^ k := by rw [← hlow, ← hhigh, ← hx]; omega

namespace Version

variable {v : Version} {token : Token}

def changes (v : Version) : Nat := v.insertCount.toNat

theorem ext_toNat {a b : Version} (h : a.word.toNat = b.word.toNat) : a = b := by
  cases a
  cases b
  exact congrArg mk (UInt32.toNat_inj.1 h)

theorem changes_eq (v : Version) : v.changes = v.word.toNat / 4 := by
  simp [changes, insertCount, Nat.shiftRight_eq_div_pow]

theorem and_ne_zero_iff {a mask : UInt32} : (a &&& mask != 0) = true ↔ a.toNat &&& mask.toNat ≠ 0 := by
  rw [bne_iff_ne, ne_eq, ← UInt32.toNat_inj, UInt32.toNat_and]
  rfl

theorem isBusy_iff : v.isBusy = true ↔ v.word.toNat % 4 ≠ 0 := by
  rw [isBusy, and_ne_zero_iff]
  exact iff_of_eq (congrArg (· ≠ 0) (Nat.and_two_pow_sub_one_eq_mod _ 2))

theorem isBusy_eq_false_iff : v.isBusy = false ↔ v.word.toNat % 4 = 0 := by
  rw [← Bool.not_eq_true, isBusy_iff, not_not]

theorem isLocked_iff : v.isLocked = true ↔ v.word.toNat % 2 = 1 := by
  rw [isLocked, and_ne_zero_iff]
  have h := Nat.and_two_pow_sub_one_eq_mod v.word.toNat 1
  rw [show lockBit.toNat = 2 ^ 1 - 1 from rfl, h]
  omega

theorem isInserting_iff : v.isInserting = true ↔ v.word.toNat / 2 % 2 = 1 := by
  have h := Nat.and_two_pow v.word.toNat 1
  rw [isInserting, and_ne_zero_iff, show insertingBit.toNat = 2 ^ 1 from rfl, h,
    Nat.testBit_eq_decide_div_mod_eq]
  simp

theorem toNat_locked (rest : v.isBusy = false) : v.locked.word.toNat = v.word.toNat + 1 := by
  rw [isBusy_eq_false_iff] at rest
  have h := or_two_pow_of_mod (x := v.word.toNat) (k := 0) (by norm_num; omega)
  simpa [locked, lockBit] using h

theorem toNat_marked (h : v.word.toNat % 4 = 1) :
    (v.word ||| insertingBit).toNat = v.word.toNat + 2 := by
  have h := or_two_pow_of_mod (x := v.word.toNat) (k := 1) (by norm_num; omega)
  simpa [insertingBit] using h

theorem toNat_released_of_isInserting (h : v.isInserting = true) :
    v.released.word.toNat = (v.changes + 1) % 2 ^ 30 * 4 := by
  have hlt := v.word.toNat_lt
  have hclear := toNat_and_not (v.word + counterStep) busyMask (k := 2) (by omega) rfl
  rw [released, if_pos h, hclear, UInt32.toNat_add, changes_eq, show counterStep.toNat = 4 from rfl]
  omega

theorem toNat_released_of_not_isInserting (h : v.isInserting = false) :
    v.released.word.toNat = v.word.toNat / 2 * 2 := by
  have hclear := toNat_and_not v.word lockBit (k := 1) (by omega) rfl
  rw [released, h]
  simpa using hclear

theorem hasChanged_eq_false_iff : v.hasChanged token = false ↔ v.word = token := by
  simp [hasChanged]

theorem hasChangedLocked_eq_false_iff :
    v.hasChangedLocked token = false ↔ v.word.toNat / 2 * 2 = token.toNat := by
  have hclear := toNat_and_not v.word lockBit (k := 1) (by omega) rfl
  rw [hasChangedLocked, bne_eq_false_iff_eq, ← UInt32.toNat_inj, hclear, Nat.pow_one]

/-- Under a lock that was taken of a version at rest, the token of this version is confirmed and no
other. -/
theorem hasChangedLocked_locked_eq_false_iff (rest : v.isBusy = false) :
    v.locked.hasChangedLocked token = false ↔ v.word = token := by
  rw [hasChangedLocked_eq_false_iff, toNat_locked rest, ← UInt32.toNat_inj]
  rw [isBusy_eq_false_iff] at rest
  omega

theorem isLocked_locked (rest : v.isBusy = false) : v.locked.isLocked = true := by
  have h := toNat_locked rest
  rw [isBusy_eq_false_iff] at rest
  rw [isLocked_iff, h]
  omega

theorem isBusy_of_isLocked (h : v.isLocked = true) : v.isBusy = true := by
  rw [isLocked_iff] at h
  rw [isBusy_iff]
  omega

theorem isInserting_locked (rest : v.isBusy = false) : v.locked.isInserting = false := by
  have h := toNat_locked rest
  rw [isBusy_eq_false_iff] at rest
  rw [← Bool.not_eq_true, isInserting_iff, h]
  omega

theorem released_locked (rest : v.isBusy = false) : v.locked.released = v := by
  have h := toNat_released_of_not_isInserting (isInserting_locked rest)
  rw [toNat_locked rest] at h
  rw [isBusy_eq_false_iff] at rest
  apply ext_toNat
  omega

def bumped (v : Version) : Version := ⟨v.word + counterStep⟩

def marked (v : Version) : Version := ⟨v.locked.word ||| insertingBit⟩

theorem markInsert_locked (rest : v.isBusy = false) : v.locked.markInsert = .ok v.marked := by
  rw [markInsert, if_pos (isLocked_locked rest), marked]

theorem unlock_marked (rest : v.isBusy = false) : v.marked.unlock = .ok v.bumped := by
  have hword := toNat_locked rest
  rw [isBusy_eq_false_iff] at rest
  have hmark : v.marked.word.toNat = v.locked.word.toNat + 2 := toNat_marked (by omega)
  have hheld : v.marked.isLocked = true := by
    rw [isLocked_iff]
    omega
  have hins : v.marked.isInserting = true := by
    rw [isInserting_iff]
    omega
  rw [unlock, if_pos hheld]
  congr 1
  have hlt := v.word.toNat_lt
  apply ext_toNat
  rw [toNat_released_of_isInserting hins, changes_eq, bumped, UInt32.toNat_add,
    show counterStep.toNat = 4 from rfl]
  omega

theorem unlock_locked (rest : v.isBusy = false) : v.locked.unlock = .ok v := by
  rw [unlock, if_pos (isLocked_locked rest), released_locked rest]

/-- Whatever was marked, a version is at rest once its lock is given back. -/
theorem isBusy_released (v : Version) : v.released.isBusy = false := by
  rw [isBusy_eq_false_iff]
  cases hins : v.isInserting with
  | true =>
    rw [toNat_released_of_isInserting hins]
    omega
  | false =>
    rw [toNat_released_of_not_isInserting hins]
    rw [← Bool.not_eq_true, isInserting_iff] at hins
    omega

theorem isLocked_markInsert {u : Version} (h : v.markInsert = .ok u) : u.isLocked = true := by
  rw [markInsert] at h
  split_ifs at h with hlocked
  obtain rfl := Except.ok.inj h
  rw [isLocked_iff] at hlocked ⊢
  have hlow : (v.word.toNat ||| 2) % 2 = v.word.toNat % 2 := by
    simpa using Nat.or_mod_two_pow (a := v.word.toNat) (b := 2) (n := 1)
  rw [UInt32.toNat_or, show insertingBit.toNat = 2 from rfl, hlow, hlocked]

theorem isBusy_bumped (rest : v.isBusy = false) : v.bumped.isBusy = false := by
  have hlt := v.word.toNat_lt
  rw [isBusy_eq_false_iff] at rest ⊢
  simp only [bumped, UInt32.toNat_add, show counterStep.toNat = 4 from rfl]
  omega

@[simp]
theorem isBusy_new : new.isBusy = false := rfl

theorem changes_new : new.changes = 0 := by
  rw [changes_eq]
  rfl

end Version

end FanoutIndex
