import Mathlib
import FanoutIndex.Key.Text
import FanoutIndex.Proofs.Key.Linear
import FanoutIndex.Proofs.Key.Padding

/-!
# The order of byte strings

Keys are in the lexicographic order of their padded strings. Zero bytes at the end make no
difference to that order, so it is the order of the strings without them, whatever the width of the
keys. A comparison that fetches words on demand decides the same and stops at the first difference.
-/

namespace FanoutIndex

/-- The number that a string of bytes writes, most significant byte first. -/
def numberOf : Bytes → Nat
  | [] => 0
  | b :: rest => b.toNat * 256 ^ rest.length + numberOf rest

theorem numberOf_lt (bytes : Bytes) : numberOf bytes < 256 ^ bytes.length := by
  induction bytes with
  | nil => exact Nat.one_pos
  | cons b rest ih =>
    have hb : b.toNat + 1 ≤ 256 := b.toNat_lt
    have hle := Nat.mul_le_mul_right (256 ^ rest.length) hb
    rw [Nat.add_mul] at hle
    rw [numberOf, List.length_cons, Nat.pow_succ]
    omega

/-- Of two numbers with two digits the first digits decide, if they differ. -/
theorem compare_digits {base a b r s : Nat} (hr : r < base) (hs : s < base) :
    compare (a * base + r) (b * base + s) = (compare a b).then (compare r s) := by
  rcases lt_trichotomy a b with hlt | rfl | hgt
  · have hstep := Nat.mul_le_mul_right base (Nat.succ_le_iff.2 hlt)
    rw [Nat.succ_mul] at hstep
    rw [compare_lt_iff_lt.2 hlt]
    exact compare_lt_iff_lt.2 (by omega)
  · have hsecond : compare (a * base + r) (a * base + s) = compare r s := by
      simp only [Nat.compare_eq_ite_lt, Nat.add_lt_add_iff_left]
    rw [hsecond, compare_eq_iff_eq.2 rfl]
    rfl
  · have hstep := Nat.mul_le_mul_right base (Nat.succ_le_iff.2 hgt)
    rw [Nat.succ_mul] at hstep
    rw [compare_gt_iff_gt.2 hgt]
    exact compare_gt_iff_gt.2 (by omega)

theorem compare_numberOf {a b : Bytes} (h : a.length = b.length) :
    compare (numberOf a) (numberOf b) = List.compareLex compare a b := by
  induction a generalizing b with
  | nil =>
    obtain rfl := List.eq_nil_of_length_eq_zero h.symm
    rfl
  | cons x xs ih =>
    cases b with
    | nil => cases h
    | cons y ys =>
      have hlength : xs.length = ys.length := Nat.succ_inj.1 h
      have hx := numberOf_lt xs
      rw [hlength] at hx
      rw [numberOf, numberOf, hlength, compare_digits hx (numberOf_lt ys), ih hlength,
        List.compareLex_cons_cons, UInt8.compare_eq_toNat_compare_toNat]

theorem numberOf_unpackWord (word : UInt64) : numberOf (unpackWord word) = word.toNat := by
  have bound := word.toNat_lt
  simp only [unpackWord, numberOf, List.length_cons, List.length_nil, UInt64.toNat_toUInt8,
    UInt64.toNat_shiftRight, UInt64.toNat_ofNat, Nat.shiftRight_eq_div_pow]
  simp only [Nat.reducePow, Nat.reduceMod, Nat.reduceAdd] at *
  omega

theorem compare_unpackWord (a b : UInt64) :
    List.compareLex compare (unpackWord a) (unpackWord b) = compare a b := by
  rw [← compare_numberOf (by rw [length_unpackWord, length_unpackWord]), numberOf_unpackWord,
    numberOf_unpackWord, UInt64.compare_eq_toNat_compare_toNat]

theorem compareLex_append {a b c d : Bytes} (h : a.length = b.length) :
    List.compareLex compare (a ++ c) (b ++ d) =
      (List.compareLex compare a b).then (List.compareLex compare c d) := by
  induction a generalizing b with
  | nil =>
    obtain rfl := List.eq_nil_of_length_eq_zero h.symm
    rfl
  | cons x xs ih =>
    cases b with
    | nil => cases h
    | cons y ys =>
      rw [List.cons_append, List.cons_append, List.compareLex_cons_cons, List.compareLex_cons_cons,
        ih (Nat.succ_inj.1 h), Ordering.then_assoc]

theorem compareLex_flatMap_unpackWord {a b : List UInt64} (h : a.length = b.length) :
    List.compareLex compare (a.flatMap unpackWord) (b.flatMap unpackWord) = compareWords a b := by
  induction a generalizing b with
  | nil =>
    obtain rfl := List.eq_nil_of_length_eq_zero h.symm
    rfl
  | cons x xs ih =>
    cases b with
    | nil => cases h
    | cons y ys =>
      rw [List.flatMap_cons, List.flatMap_cons,
        compareLex_append (by rw [length_unpackWord, length_unpackWord]), compare_unpackWord,
        ih (Nat.succ_inj.1 h), compareWords_eq_compareLex, compareWords_eq_compareLex,
        List.compareLex_cons_cons]

theorem Key.compare_eq_compare_toBytes {n : Nat} (a b : Key n) :
    compare a b = List.compareLex compare a.toBytes b.toBytes := by
  rw [Key.compare_def, toBytes, toBytes, compareLex_flatMap_unpackWord]
  simp

section Padding

theorem dropPadding_cons (b : UInt8) (rest : Bytes) : dropPadding (b :: rest) =
    if b = 0 ∧ dropPadding rest = [] then [] else b :: dropPadding rest := by
  have hrest : dropPadding rest = [] ↔ List.dropWhile (· == 0) rest.reverse = [] :=
    List.reverse_eq_nil_iff
  simp only [hrest]
  rw [dropPadding, List.reverse_cons, List.dropWhile_append]
  by_cases hnil : List.dropWhile (· == 0) rest.reverse = []
  · by_cases hb : b = 0 <;> simp [dropPadding, hnil, hb]
  · simp [dropPadding, hnil]

theorem dropPadding_append_replicate (bytes : Bytes) (count : Nat) :
    dropPadding (bytes ++ List.replicate count 0) = dropPadding bytes := by
  induction count with
  | zero => simp
  | succ count ih =>
    rw [List.replicate_succ', ← List.append_assoc, ← ih]
    simp [dropPadding]

/-- What is left of a string after its padding stands behind every string that has nothing left. -/
theorem compare_zero_then {b : UInt8} {rest : Bytes} (h : ¬(b = 0 ∧ rest = [])) :
    (compare 0 b).then (List.compareLex compare [] rest) = .lt := by
  by_cases hb : b = 0
  · subst hb
    cases rest with
    | nil => exact absurd ⟨rfl, rfl⟩ h
    | cons c more => rfl
  · have hpos : compare (0 : UInt8) b = .lt := by
      rw [UInt8.compare_eq_toNat_compare_toNat, compare_lt_iff_lt]
      exact Nat.pos_of_ne_zero fun hzero => hb (UInt8.toNat_inj.1 hzero)
    rw [hpos]
    rfl

/-- Strings of the same length are ordered as they are without the zero bytes at their ends. -/
theorem compareLex_dropPadding {a b : Bytes} (h : a.length = b.length) :
    List.compareLex compare (dropPadding a) (dropPadding b) = List.compareLex compare a b := by
  induction a generalizing b with
  | nil =>
    obtain rfl := List.eq_nil_of_length_eq_zero h.symm
    rfl
  | cons x xs ih =>
    cases b with
    | nil => cases h
    | cons y ys =>
      rw [List.compareLex_cons_cons, ← ih (Nat.succ_inj.1 h), dropPadding_cons, dropPadding_cons]
      split_ifs with hx hy hy
      · rw [hx.1, hx.2, hy.1, hy.2]
        rfl
      · rw [hx.1, hx.2, compare_zero_then hy]
        rfl
      · have hswap :
            (compare x y).then (List.compareLex compare (dropPadding xs) (dropPadding ys)) =
              ((compare y x).then
                (List.compareLex compare (dropPadding ys) (dropPadding xs))).swap := by
          rw [Ordering.swap_then, ← Std.OrientedCmp.eq_swap, ← Std.OrientedCmp.eq_swap]
        rw [hswap, hy.1, hy.2, compare_zero_then hx]
        rfl
      · exact List.compareLex_cons_cons

end Padding

namespace Key

variable {n : Nat}

section Fetching

def fetch (key : Key n) (i : Fin n) : StateM (List Nat) UInt64 := do
  modify fun fetched => fetched ++ [i.val]
  pure (key.words.get i)

variable {a b : Key n} {i d : Fin n} {rest same : List (Fin n)}

theorem run_fetch (fetched : List Nat) :
    (b.fetch i).run fetched = pure (b.words.get i, fetched ++ [i.val]) := rfl

theorem run_compareAt_of_eq (h : a.words.get i = b.words.get i) (fetched : List Nat) :
    (a.compareAt b.fetch (i :: rest)).run fetched =
      (a.compareAt b.fetch rest).run (fetched ++ [i.val]) := by
  have hsame : compare (b.words.get i) (b.words.get i) = .eq := Std.ReflCmp.compare_self
  rw [compareAt, StateT.run_bind, run_fetch, pure_bind]
  simp only [h, hsame]

theorem run_compareAt_of_ne (h : compare (a.words.get i) (b.words.get i) ≠ .eq)
    (fetched : List Nat) :
    (a.compareAt b.fetch (i :: rest)).run fetched =
      (compare (a.words.get i) (b.words.get i), fetched ++ [i.val]) := by
  rw [compareAt, StateT.run_bind, run_fetch, pure_bind]
  simp only
  generalize compare (a.words.get i) (b.words.get i) = decided at h ⊢
  cases decided with
  | eq => exact absurd rfl h
  | lt => rfl
  | gt => rfl

theorem run_compareAt_append (h : ∀ i ∈ same, a.words.get i = b.words.get i)
    (fetched : List Nat) :
    (a.compareAt b.fetch (same ++ rest)).run fetched =
      (a.compareAt b.fetch rest).run (fetched ++ same.map Fin.val) := by
  induction same generalizing fetched with
  | nil => simp
  | cons i more ih =>
    rw [List.cons_append, run_compareAt_of_eq (h i List.mem_cons_self),
      ih fun j hj => h j (List.mem_cons_of_mem _ hj)]
    simp

theorem compareFetching_self (a : Key n) : a.compareFetching a = (.eq, List.range n) := by
  have h : (a.compareAt a.fetch (List.finRange n ++ [])).run [] =
      (a.compareAt a.fetch []).run ([] ++ (List.finRange n).map Fin.val) :=
    run_compareAt_append (fun _ _ => rfl) []
  rw [List.append_nil, List.nil_append, List.map_coe_finRange_eq_range] at h
  exact h

/-- The words are fetched up to the first that differs. -/
theorem compareFetching_of_ne (h : a.AgreesBelow b d) (differ : a.words.get d ≠ b.words.get d) :
    a.compareFetching b = (compare a b, List.range (d + 1)) := by
  have hdiffer : compare (a.words.get d) (b.words.get d) ≠ .eq :=
    fun heq => differ (Std.LawfulEqOrd.eq_of_compare heq)
  have hd : d.val < (List.finRange n).length := by simp
  have hrange : List.finRange n =
      (List.finRange n).take d ++ d :: (List.finRange n).drop (d + 1) := by
    have hsplit := List.take_append_drop d (List.finRange n)
    rw [List.drop_eq_getElem_cons hd, List.getElem_finRange] at hsplit
    exact hsplit.symm
  have hbelow : ∀ i ∈ (List.finRange n).take d, a.words.get i = b.words.get i := by
    intro i hi
    obtain ⟨j, hj, rfl⟩ := List.mem_take_iff_getElem.1 hi
    refine h _ ?_
    simp at hj ⊢
    omega
  have hrun : (a.compareAt b.fetch ((List.finRange n).take d ++
      d :: (List.finRange n).drop (d + 1))).run [] =
        (a.compareAt b.fetch (d :: (List.finRange n).drop (d + 1))).run
          ([] ++ ((List.finRange n).take d).map Fin.val) :=
    run_compareAt_append hbelow []
  rw [← hrange, run_compareAt_of_ne hdiffer, ← h.compare_eq_of_ne hdiffer, List.map_take,
    List.map_coe_finRange_eq_range, List.take_range, Nat.min_eq_left d.isLt.le, List.nil_append,
    ← List.range_succ] at hrun
  exact hrun

end Fetching

theorem exists_first_difference {a b : Key n} (h : a ≠ b) :
    ∃ d : Fin n, a.AgreesBelow b d ∧ a.words.get d ≠ b.words.get d := by
  by_contra! hnone
  have below : ∀ index ≤ n, a.AgreesBelow b index := by
    intro index hle
    induction index with
    | zero => exact agreesBelow_zero a b
    | succ index ih =>
      have hbefore := ih (Nat.le_of_succ_le hle)
      exact hbefore.succ (hnone ⟨index, hle⟩ hbefore)
  exact h ((below n le_rfl).eq le_rfl)

/-- Keys are in the order of their padded strings, which is the order of the strings without their
padding. Fetching the words of the other key gives the same answer, and asks for no word past the
first that differs. -/
theorem order_is_lexicographic (n : Nat) :
    (∀ a b : Bytes, a.length ≤ capacity n → b.length ≤ capacity n →
      ∃ x y : Key n, ofBytes n a = .ok x ∧ ofBytes n b = .ok y ∧
        compare x y = List.compareLex compare (padBytes n a) (padBytes n b) ∧
        compare x y = List.compareLex compare (dropPadding a) (dropPadding b) ∧
        (x = y ↔ dropPadding a = dropPadding b)) ∧
    ∀ x y : Key n,
      (x.compareFetching y).1 = compare x y ∧
      (∀ d : Fin n, x.AgreesBelow y d → x.words.get d ≠ y.words.get d →
        (x.compareFetching y).2 = List.range (d + 1)) ∧
      (x = y → (x.compareFetching y).2 = List.range n) := by
  constructor
  · intro a b ha hb
    obtain ⟨x, hx⟩ := exists_ofBytes_iff.2 ha
    obtain ⟨y, hy⟩ := exists_ofBytes_iff.2 hb
    have hpadded : compare x y = List.compareLex compare (padBytes n a) (padBytes n b) := by
      rw [compare_eq_compare_toBytes, toBytes_ofBytes hx, toBytes_ofBytes hy]
    have hdropped : compare x y = List.compareLex compare (dropPadding a) (dropPadding b) := by
      rw [hpadded, ← compareLex_dropPadding (by rw [length_padBytes ha, length_padBytes hb]),
        padBytes, padBytes, dropPadding_append_replicate, dropPadding_append_replicate]
    refine ⟨x, y, hx, hy, hpadded, hdropped, ?_⟩
    rw [← compare_eq_iff, hdropped, Std.LawfulEqCmp.compare_eq_iff_eq]
  · intro x y
    refine ⟨?_, fun d h differ => by rw [compareFetching_of_ne h differ], ?_⟩
    · by_cases heq : x = y
      · rw [heq, compareFetching_self, compare_eq_iff.2 rfl]
      · obtain ⟨d, h, differ⟩ := exists_first_difference heq
        rw [compareFetching_of_ne h differ]
    · rintro rfl
      rw [compareFetching_self]

/-- The strings part in the second word of their keys, and one of them ends before it. -/
theorem order_is_lexicographic_second_word :
    (∃ x y : Key 2, ofBytes 2 [1, 2, 3, 4, 5, 6, 7, 8] = .ok x ∧
      ofBytes 2 [1, 2, 3, 4, 5, 6, 7, 8, 0, 9, 0] = .ok y ∧
      compare x y = List.compareLex compare (padBytes 2 [1, 2, 3, 4, 5, 6, 7, 8])
        (padBytes 2 [1, 2, 3, 4, 5, 6, 7, 8, 0, 9, 0]) ∧
      compare x y = List.compareLex compare (dropPadding [1, 2, 3, 4, 5, 6, 7, 8])
        (dropPadding [1, 2, 3, 4, 5, 6, 7, 8, 0, 9, 0]) ∧
      (x = y ↔ dropPadding [1, 2, 3, 4, 5, 6, 7, 8] =
        dropPadding [1, 2, 3, 4, 5, 6, 7, 8, 0, 9, 0])) ∧
    ((⟨#v[5, 6, 7]⟩ : Key 3).compareFetching ⟨#v[5, 8, 7]⟩).2 = List.range 2 := by
  have below : (⟨#v[5, 6, 7]⟩ : Key 3).AgreesBelow ⟨#v[5, 8, 7]⟩ 1 := by
    unfold AgreesBelow
    decide
  exact ⟨(order_is_lexicographic 2).1 _ _ (by decide) (by decide),
    ((order_is_lexicographic 3).2 ⟨#v[5, 6, 7]⟩ ⟨#v[5, 8, 7]⟩).2.1 1 below (by decide)⟩

end Key

end FanoutIndex
