import Mathlib
import FanoutIndex.Proofs.Key.Padding

namespace FanoutIndex

theorem packWord_unpackWord (word : UInt64) (rest : Bytes) :
    packWord (unpackWord word ++ rest) = word := by
  have bound := word.toNat_lt
  simp only [packWord, unpackWord, bytesPerWord, packBytes, List.cons_append, List.nil_append,
    ← UInt64.toNat_inj, UInt64.toNat_add, UInt64.toNat_mul, UInt8.toNat_toUInt64,
    UInt64.toNat_toUInt8, UInt64.toNat_shiftRight, UInt64.toNat_ofNat, Nat.shiftRight_eq_div_pow]
  simp only [Nat.reducePow, Nat.reduceMod] at *
  omega

theorem drop_flatMap_unpackWord (words : List UInt64) (i : Nat) :
    (words.flatMap unpackWord).drop (i * bytesPerWord) = (words.drop i).flatMap unpackWord := by
  induction i generalizing words with
  | zero => simp
  | succ i ih =>
    cases words with
    | nil => simp
    | cons word rest =>
      rw [Nat.succ_mul, Nat.add_comm, List.flatMap_cons, List.drop_append,
        List.drop_succ_cons, ← ih rest]
      simp

namespace Key

variable {n : Nat}

theorem ofBytes_toBytes (key : Key n) : ofBytes n key.toBytes = .ok key := by
  rw [ofBytes_eq_ok key.length_toBytes.le, packed]
  obtain ⟨words⟩ := key
  congr 2
  ext1 i hi
  have hword : words.toList.drop i = words[i] :: words.toList.drop (i + 1) := by
    rw [List.drop_eq_getElem_cons (by simpa using hi), Vector.getElem_toList]
  rw [Vector.getElem_ofFn, toBytes, drop_flatMap_unpackWord, hword, List.flatMap_cons,
    packWord_unpackWord]

theorem toBytes_injective : Function.Injective (toBytes : Key n → Bytes) := by
  intro a b h
  have hb := ofBytes_toBytes b
  rw [← h, ofBytes_toBytes a] at hb
  exact Except.ok.inj hb

/-- Every string of full length is that of one key. -/
theorem bijOn_toBytes :
    Set.BijOn (toBytes : Key n → Bytes) Set.univ {bytes | bytes.length = capacity n} := by
  refine ⟨fun key _ => key.length_toBytes, toBytes_injective.injOn, fun bytes full => ?_⟩
  obtain ⟨key, hkey⟩ := exists_ofBytes_iff.2 (le_of_eq full)
  exact ⟨key, trivial, (toBytes_ofBytes hkey).trans (padBytes_of_length full)⟩

/-- A string that fits comes back with zero bytes after it, any words come back as they are, and a
string is refused exactly if it is too long. -/
theorem codec_round_trips (n : Nat) :
    (∀ data : Bytes, data.length ≤ capacity n →
      ∃ key : Key n, ofBytes n data = .ok key ∧
        key.toBytes = data ++ List.replicate (capacity n - data.length) 0) ∧
    (∀ words : Vector UInt64 n, ofBytes n (toBytes ⟨words⟩) = .ok ⟨words⟩) ∧
    (∀ data : Bytes, (∃ fault, ofBytes n data = .error fault) ↔ capacity n < data.length) ∧
    Set.BijOn (toBytes : Key n → Bytes) Set.univ {bytes | bytes.length = capacity n} := by
  refine ⟨fun data fits => ?_, fun words => ofBytes_toBytes ⟨words⟩, fun data => ?_, bijOn_toBytes⟩
  · obtain ⟨key, hkey⟩ := exists_ofBytes_iff.2 fits
    exact ⟨key, hkey, toBytes_ofBytes hkey⟩
  · simp only [ofBytes_eq_error_iff, exists_and_left, exists_eq, and_true]

/-- The second word is read from one byte, and the third from none. -/
theorem codec_round_trips_nine_bytes :
    [1, 2, 3, 4, 5, 6, 7, 8, 9].length ≤ capacity 3 ∧
      ∃ key : Key 3, ofBytes 3 [1, 2, 3, 4, 5, 6, 7, 8, 9] = .ok key ∧
        key.toBytes = [1, 2, 3, 4, 5, 6, 7, 8, 9] ++ List.replicate (capacity 3 - 9) 0 :=
  ⟨by decide, (codec_round_trips 3).1 [1, 2, 3, 4, 5, 6, 7, 8, 9] (by decide)⟩

end Key

end FanoutIndex
