import Mathlib
import FanoutIndex.Key.Basic

namespace FanoutIndex

/-- The byte string of full length that a key stands for. -/
def padBytes (n : Nat) (data : Bytes) : Bytes :=
  data ++ List.replicate (Key.capacity n - data.length) 0

def byteAt (data : Bytes) (i : Nat) : UInt8 := data.getD i 0

theorem byteAt_drop (data : Bytes) (k i : Nat) : byteAt (data.drop k) i = byteAt data (k + i) := by
  simp [byteAt]

theorem byteAt_padBytes (n : Nat) (data : Bytes) (i : Nat) :
    byteAt (padBytes n data) i = byteAt data i := by
  unfold byteAt padBytes
  by_cases hi : i < data.length
  · simp [List.getElem?_append_left hi]
  · have hle := Nat.le_of_not_lt hi
    rw [List.getD_append_right _ _ _ _ hle, List.getD_eq_default _ _ hle]
    simp only [List.getD_eq_getElem?_getD, List.getElem?_replicate]
    split_ifs <;> rfl

theorem packBytes_succ (count : Nat) (word : UInt64) (data : Bytes) :
    packBytes (count + 1) word data =
      packBytes count (word * 256 + (byteAt data 0).toUInt64) data.tail := by
  cases data with
  | nil => simp [packBytes, byteAt]
  | cons b rest => simp [packBytes, byteAt]

theorem byteAt_tail (data : Bytes) (i : Nat) : byteAt data.tail i = byteAt data (i + 1) := by
  cases data <;> simp [byteAt]

theorem packBytes_congr {a b : Bytes} {count : Nat} {word : UInt64}
    (h : ∀ i < count, byteAt a i = byteAt b i) : packBytes count word a = packBytes count word b := by
  induction count generalizing word a b with
  | zero => rfl
  | succ count ih =>
    rw [packBytes_succ, packBytes_succ, h 0 (Nat.succ_pos count)]
    apply ih
    intro i hi
    rw [byteAt_tail, byteAt_tail]
    exact h (i + 1) (Nat.succ_lt_succ hi)

theorem packWord_congr {a b : Bytes} (h : ∀ i < bytesPerWord, byteAt a i = byteAt b i) :
    packWord a = packWord b := packBytes_congr h

theorem unpackWord_packWord (data : Bytes) :
    unpackWord (packWord data) = (List.range bytesPerWord).map (byteAt data) := by
  have bound (i : Nat) := (byteAt data i).toNat_lt
  have h0 := bound 0; have h1 := bound 1; have h2 := bound 2; have h3 := bound 3
  have h4 := bound 4; have h5 := bound 5; have h6 := bound 6; have h7 := bound 7
  simp only [unpackWord, packWord, bytesPerWord, packBytes_succ, byteAt_tail, packBytes,
    show List.range 8 = [0, 1, 2, 3, 4, 5, 6, 7] from rfl, List.map_cons, List.map_nil,
    List.cons.injEq, and_true, ← UInt8.toNat_inj, UInt64.toNat_toUInt8, UInt64.toNat_shiftRight,
    UInt64.toNat_add, UInt64.toNat_mul, UInt8.toNat_toUInt64, UInt64.toNat_ofNat,
    Nat.shiftRight_eq_div_pow]
  simp only [Nat.reducePow, Nat.reduceMod, Nat.reduceAdd] at *
  refine ⟨?_, ?_, ?_, ?_, ?_, ?_, ?_, ?_⟩ <;> omega

theorem flatMap_range_blocks {α : Type} (f : Nat → α) (k count : Nat) :
    (List.range count).flatMap (fun i => (List.range k).map fun j => f (i * k + j)) =
      (List.range (count * k)).map f := by
  induction count with
  | zero => simp
  | succ count ih =>
    rw [List.range_succ, List.flatMap_append, ih, Nat.succ_mul, List.range_add, List.map_append]
    simp [Function.comp_def]

/-- A position in a row of blocks of equal length tells the block and the place in it. -/
theorem block_unique {k i j s t : Nat} (hs : s < k) (ht : t < k) (h : i * k + s = j * k + t) :
    i = j ∧ s = t := by
  have hmod : s = t := by
    rw [← Nat.mul_add_mod_of_lt (a := i) hs, h, Nat.mul_add_mod_of_lt ht]
  subst hmod
  exact ⟨Nat.eq_of_mul_eq_mul_right (Nat.zero_lt_of_lt hs) (Nat.add_right_cancel h), rfl⟩

theorem eq_of_padBytes_eq {n : Nat} {a b : Bytes} (hlen : a.length = b.length)
    (h : padBytes n a = padBytes n b) : a = b := List.append_inj_left h hlen

theorem length_padBytes {n : Nat} {data : Bytes} (fits : data.length ≤ Key.capacity n) :
    (padBytes n data).length = Key.capacity n := by
  simp [padBytes, fits]

theorem padBytes_of_length {n : Nat} {data : Bytes} (full : data.length = Key.capacity n) :
    padBytes n data = data := by
  simp [padBytes, full]

theorem padBytes_eq_map {n : Nat} {data : Bytes} (fits : data.length ≤ Key.capacity n) :
    padBytes n data = (List.range (Key.capacity n)).map (byteAt data) := by
  apply List.ext_getElem (by simp [length_padBytes fits])
  intro i hi _
  rw [List.getElem_map, List.getElem_range, ← byteAt_padBytes n]
  simp [byteAt, List.getElem?_eq_getElem hi]

namespace Key

variable {n : Nat}

/-- The key that a byte string fills, as far as it fits. -/
def packed (n : Nat) (data : Bytes) : Key n :=
  ⟨Vector.ofFn fun i => packWord (data.drop (i * bytesPerWord))⟩

theorem ofBytes_eq_ok {data : Bytes} (fits : data.length ≤ capacity n) :
    ofBytes n data = .ok (packed n data) := if_pos fits

theorem exists_ofBytes_iff {data : Bytes} :
    (∃ key, ofBytes n data = .ok key) ↔ data.length ≤ capacity n := by
  constructor
  · rintro ⟨key, h⟩
    by_contra hlt
    rw [ofBytes, if_neg hlt] at h
    cases h
  · intro fits
    exact ⟨_, ofBytes_eq_ok fits⟩

/-- Decoding a key gives the padded form of the string that was encoded. -/
theorem toBytes_ofBytes {data : Bytes} {key : Key n} (h : ofBytes n data = .ok key) :
    key.toBytes = padBytes n data := by
  have fits := exists_ofBytes_iff.1 ⟨key, h⟩
  rw [ofBytes_eq_ok fits] at h
  cases h
  have hrange : List.range n = (List.finRange n).map Fin.val := List.map_coe_finRange_eq_range.symm
  rw [padBytes_eq_map fits, capacity, ← flatMap_range_blocks, hrange, List.flatMap_map]
  simp only [toBytes, packed, Vector.toList_ofFn, List.ofFn_eq_map, List.flatMap_map, unpackWord_packWord]
  congr 1
  funext i
  apply List.map_congr_left
  intro j _
  exact byteAt_drop data (i * bytesPerWord) j

theorem toBytes_packed {data : Bytes} (fits : data.length ≤ capacity n) :
    (packed n data).toBytes = padBytes n data := toBytes_ofBytes (ofBytes_eq_ok fits)

theorem ofBytes_eq_iff {a b : Bytes} {key : Key n} (ha : ofBytes n a = .ok key)
    (hb : b.length ≤ capacity n) : ofBytes n b = .ok key ↔ padBytes n b = padBytes n a := by
  constructor
  · intro h
    rw [← toBytes_ofBytes h, ← toBytes_ofBytes ha]
  · intro h
    have fits := exists_ofBytes_iff.1 ⟨key, ha⟩
    rw [ofBytes_eq_ok fits] at ha
    rw [ofBytes_eq_ok hb, ← ha]
    unfold packed
    congr 3
    funext i
    apply packWord_congr
    intro j _
    rw [byteAt_drop, byteAt_drop, ← byteAt_padBytes n, ← byteAt_padBytes n a, h]

theorem packed_eq_iff {a b : Bytes} (ha : a.length ≤ capacity n) (hb : b.length ≤ capacity n) :
    packed n a = packed n b ↔ padBytes n a = padBytes n b := by
  have h := ofBytes_eq_iff (ofBytes_eq_ok hb) ha
  rwa [ofBytes_eq_ok ha, Except.ok.injEq] at h

theorem ofBytes_padBytes {data : Bytes} {key : Key n} (h : ofBytes n data = .ok key) :
    ofBytes n (padBytes n data) = .ok key := by
  have hlen := length_padBytes (exists_ofBytes_iff.1 ⟨key, h⟩)
  rw [ofBytes_eq_iff h hlen.le, padBytes_of_length hlen]

end Key

end FanoutIndex
