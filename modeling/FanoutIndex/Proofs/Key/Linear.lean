import Mathlib
import FanoutIndex.Key.Order

namespace FanoutIndex

variable {n : Nat}

theorem compareWords_eq_compareLex (a b : List UInt64) :
    compareWords a b = List.compareLex compare a b := by
  induction a generalizing b with
  | nil => cases b <;> rfl
  | cons x xs ih =>
    cases b with
    | nil => rfl
    | cons y ys =>
      rw [List.compareLex_cons_cons]
      simp only [compareWords, ih]
      cases compare x y <;> rfl

namespace Key

theorem compare_eq_compareLex (a b : Key n) :
    compare a b = List.compareLex compare a.words.toList b.words.toList :=
  compareWords_eq_compareLex _ _

instance : Std.OrientedOrd (Key n) where
  eq_swap {a b} := by
    simp only [compare_eq_compareLex]
    exact Std.OrientedCmp.eq_swap

instance : Std.TransOrd (Key n) where
  isLE_trans {a b c} hab hbc := by
    simp only [compare_eq_compareLex] at *
    exact Std.TransCmp.isLE_trans hab hbc

theorem lt_iff_compare {a b : Key n} : a < b ↔ compare a b = .lt := Iff.rfl

theorem le_iff_compare {a b : Key n} : a ≤ b ↔ (compare a b).isLE = true := Iff.rfl

theorem gt_iff_compare {a b : Key n} : b < a ↔ compare a b = .gt := by
  rw [lt_iff_compare]
  exact Std.OrientedCmp.gt_iff_lt.symm

theorem lt_iff_le_not_ge {a b : Key n} : a < b ↔ a ≤ b ∧ ¬b ≤ a := by
  have h : compare b a = (compare a b).swap := Std.OrientedOrd.eq_swap
  rw [lt_iff_compare, le_iff_compare, le_iff_compare, h]
  cases compare a b <;> simp

theorem le_total (a b : Key n) : a ≤ b ∨ b ≤ a := by
  have h : compare b a = (compare a b).swap := Std.OrientedOrd.eq_swap
  rw [le_iff_compare, le_iff_compare, h]
  cases compare a b <;> simp

theorem le_antisymm {a b : Key n} (hab : a ≤ b) (hba : b ≤ a) : a = b := by
  have h : compare b a = (compare a b).swap := Std.OrientedOrd.eq_swap
  rw [le_iff_compare] at hab hba
  rw [h] at hba
  apply compare_eq_iff.1
  generalize compare a b = o at hab hba
  cases o <;> simp_all

theorem compare_eq_compareOfLessAndEq (a b : Key n) : compare a b = compareOfLessAndEq a b := by
  unfold compareOfLessAndEq
  by_cases hlt : a < b
  · rw [if_pos hlt]
    exact hlt
  · rw [if_neg hlt]
    by_cases he : a = b
    · rw [if_pos he]
      exact compare_eq_iff.2 he
    · rw [if_neg he]
      rw [lt_iff_compare] at hlt
      rw [← compare_eq_iff] at he
      generalize compare a b = o at hlt he
      cases o <;> simp_all

instance : LinearOrder (Key n) where
  le_refl a := by
    rw [le_iff_compare, compare_eq_iff.2 rfl]
    rfl
  le_trans a b c := Std.TransOrd.isLE_trans
  lt_iff_le_not_ge a b := lt_iff_le_not_ge
  le_antisymm a b := le_antisymm
  le_total := le_total
  toDecidableLE a b := inferInstanceAs (Decidable ((compare a b).isLE = true))
  toDecidableLT := inferInstance
  toDecidableEq := inferInstance
  compare_eq_compareOfLessAndEq := compare_eq_compareOfLessAndEq

theorem compareAt_drop (a b : Key n) (i : Nat) :
    Id.run (a.compareAt (fun j => pure (b.words.get j)) ((List.finRange n).drop i)) =
      compareWords (a.words.toList.drop i) (b.words.toList.drop i) := by
  by_cases hi : i < n
  · have hn : i < (List.finRange n).length := by simpa using hi
    have ha : i < a.words.toList.length := by simpa using hi
    have hb : i < b.words.toList.length := by simpa using hi
    have ih := compareAt_drop a b (i + 1)
    rw [List.drop_eq_getElem_cons hn, List.drop_eq_getElem_cons ha, List.drop_eq_getElem_cons hb]
    simp only [compareAt, compareWords, List.getElem_finRange, get_eq_getElem, Fin.cast_mk,
      Vector.getElem_toList, pure_bind]
    cases compare a.words[i] b.words[i] with
    | eq => exact ih
    | lt => rfl
    | gt => rfl
  · have hle : n ≤ i := Nat.le_of_not_lt hi
    rw [List.drop_eq_nil_of_le (by simpa using hle), List.drop_eq_nil_of_le (by simpa using hle),
      List.drop_eq_nil_of_le (by simpa using hle)]
    rfl
termination_by n - i

theorem compareWith_eq_compare (a b : Key n) :
    Id.run (a.compareWith fun j => pure (b.words.get j)) = compare a b := by
  have h := compareAt_drop a b 0
  simpa [compareWith, compare_def] using h

/-- The words before an index are the same. -/
def AgreesBelow (a b : Key n) (index : Nat) : Prop :=
  ∀ i : Fin n, i.val < index → a.words.get i = b.words.get i

variable {a b : Key n} {index : Nat}

theorem agreesBelow_zero (a b : Key n) : a.AgreesBelow b 0 := fun _ h => absurd h (Nat.not_lt_zero _)

theorem AgreesBelow.succ {i : Fin n} (h : a.AgreesBelow b i)
    (same : a.words.get i = b.words.get i) : a.AgreesBelow b (i + 1) := by
  intro j hlt
  rcases Nat.lt_succ_iff_lt_or_eq.1 hlt with hlt | heq
  · exact h j hlt
  · obtain rfl := Fin.ext heq
    exact same

theorem AgreesBelow.eq (h : a.AgreesBelow b index) (all : n ≤ index) : a = b := by
  obtain ⟨words⟩ := a
  obtain ⟨others⟩ := b
  congr 1
  ext1 i hi
  exact h ⟨i, hi⟩ (hi.trans_le all)

theorem AgreesBelow.compare_eq (h : a.AgreesBelow b index) (hle : index ≤ n) :
    compare a b = compareWords (a.words.toList.drop index) (b.words.toList.drop index) := by
  induction index with
  | zero => rfl
  | succ index ih =>
    have ha : index < a.words.toList.length := by simpa using hle
    have hb : index < b.words.toList.length := by simpa using hle
    have hsame : a.words.toList[index] = b.words.toList[index] := by
      simpa [get_eq_getElem] using h ⟨index, hle⟩ (Nat.lt_succ_self index)
    rw [ih (fun i hi => h i (Nat.lt_succ_of_lt hi)) (Nat.le_of_succ_le hle),
      List.drop_eq_getElem_cons ha, List.drop_eq_getElem_cons hb, hsame]
    simp [compareWords]

/-- The first words that differ decide. -/
theorem AgreesBelow.compare_eq_of_ne {i : Fin n} (h : a.AgreesBelow b i)
    (differ : compare (a.words.get i) (b.words.get i) ≠ .eq) :
    compare a b = compare (a.words.get i) (b.words.get i) := by
  have ha : i.val < a.words.toList.length := by simp
  have hb : i.val < b.words.toList.length := by simp
  rw [h.compare_eq (Nat.le_of_lt i.isLt), List.drop_eq_getElem_cons ha,
    List.drop_eq_getElem_cons hb]
  simp only [get_eq_getElem] at differ ⊢
  simp only [compareWords, Vector.getElem_toList]

end Key

end FanoutIndex
