import Mathlib
import FanoutIndex.Proofs.Key.Codec
import FanoutIndex.Proofs.Key.Lexicographic

/-!
# Printed keys

The printed form of a byte is one visible character, or four that begin with a backslash. A reader
that takes every backslash for the beginning of four gets the bytes back as long as none of them is
a backslash itself. The zero bytes that printing drops are known from the length of the key, so keys
without a backslash are told apart by their printed forms.
-/

namespace FanoutIndex

open Text

def hexValue (c : Char) : Nat :=
  if c.isDigit then c.toNat - '0'.toNat else c.toNat - 'a'.toNat + 10

/-- The bytes that a printed form shows, if each backslash in it begins an escape. -/
def readPrinted : List Char → Bytes
  | '\\' :: 'x' :: high :: low :: rest =>
    UInt8.ofNat (16 * hexValue high + hexValue low) :: readPrinted rest
  | c :: rest => UInt8.ofNat c.toNat :: readPrinted rest
  | [] => []

theorem hexValue_digitChar : ∀ d < 16, hexValue (Nat.digitChar d) = d := by decide

theorem readPrinted_cons {c : Char} (h : c ≠ '\\') (rest : List Char) :
    readPrinted (c :: rest) = UInt8.ofNat c.toNat :: readPrinted rest := by
  rw [readPrinted]
  rintro high low more rfl
  exact absurd rfl h

theorem readPrinted_hexPair (b : UInt8) (rest : List Char) :
    readPrinted ('\\' :: 'x' :: (hexPair b ++ rest)) = b :: readPrinted rest := by
  have hb := b.toNat_lt
  have hhigh : hexValue (Nat.digitChar (b.toNat / 16)) = b.toNat / 16 :=
    hexValue_digitChar _ (by omega)
  have hlow : hexValue (Nat.digitChar (b.toNat % 16)) = b.toNat % 16 :=
    hexValue_digitChar _ (by omega)
  simp only [hexPair, List.cons_append, List.nil_append, readPrinted, hhigh, hlow, Nat.div_add_mod,
    UInt8.ofNat_toNat]

theorem isPlainByte_iff {b : UInt8} : isPlainByte b = true ↔ 0x20 ≤ b.toNat ∧ b.toNat ≤ 0x7e := by
  simp [isPlainByte, UInt8.le_iff_toNat_le]

theorem toNat_ofNat_of_plain {b : UInt8} (plain : isPlainByte b = true) :
    (Char.ofNat b.toNat).toNat = b.toNat := by
  have hb := isPlainByte_iff.1 plain
  rw [Char.toNat_ofNat, if_pos (.inl (by omega))]

/-- The first byte comes back from a printed form, unless it is a backslash. -/
theorem readPrinted_printByte {b : UInt8} (h : b ≠ 0x5c) (rest : List Char) :
    readPrinted (printByte b ++ rest) = b :: readPrinted rest := by
  cases plain : isPlainByte b with
  | true =>
    have hnat := toNat_ofNat_of_plain plain
    have hc : Char.ofNat b.toNat ≠ '\\' := by
      intro hc
      rw [hc] at hnat
      exact h (UInt8.toNat_inj.1 hnat.symm)
    simp only [printByte, plain, if_true, List.singleton_append]
    rw [readPrinted_cons hc, hnat, UInt8.ofNat_toNat]
  | false =>
    simp only [printByte, plain, Bool.false_eq_true, if_false, List.cons_append]
    exact readPrinted_hexPair b rest

theorem readPrinted_flatMap_printByte {bytes : Bytes} (h : 0x5c ∉ bytes) :
    readPrinted (bytes.flatMap printByte) = bytes := by
  induction bytes with
  | nil => rfl
  | cons b rest ih =>
    rw [List.mem_cons, not_or] at h
    rw [List.flatMap_cons, readPrinted_printByte (Ne.symm h.1), ih h.2]

theorem visible_of_mem_printByte {b : UInt8} {c : Char} (h : c ∈ printByte b) :
    0x20 ≤ c.toNat ∧ c.toNat ≤ 0x7e := by
  have digit : ∀ d < 16, 0x20 ≤ (Nat.digitChar d).toNat ∧ (Nat.digitChar d).toNat ≤ 0x7e := by
    decide
  cases plain : isPlainByte b with
  | true =>
    simp only [printByte, plain, if_true, List.mem_singleton] at h
    rw [h, toNat_ofNat_of_plain plain]
    exact isPlainByte_iff.1 plain
  | false =>
    simp only [printByte, plain, Bool.false_eq_true, if_false, hexPair, List.mem_cons,
      List.not_mem_nil, or_false] at h
    have hb := b.toNat_lt
    rcases h with rfl | rfl | rfl | rfl
    · decide
    · decide
    · exact digit _ (by omega)
    · exact digit _ (by omega)

theorem utf8EncodeChar_of_visible {c : Char} (h : 0x20 ≤ c.toNat ∧ c.toNat ≤ 0x7e) :
    String.utf8EncodeChar c = [UInt8.ofNat c.toNat] := by
  have hsize : c.utf8Size = 1 := Char.utf8Size_eq_one_iff.2 (by
    rw [UInt32.le_iff_toNat_le]
    exact h.2.trans (by decide))
  rw [String.utf8EncodeChar_eq_singleton hsize]
  rfl

section DropPadding

variable {bytes front back : Bytes}

theorem dropPadding_eq_rdropWhile (bytes : Bytes) :
    dropPadding bytes = bytes.rdropWhile (· == 0) := rfl

theorem exists_dropPadding_append (bytes : Bytes) :
    ∃ count, bytes = dropPadding bytes ++ List.replicate count 0 := by
  have hzero : ∀ b ∈ bytes.rtakeWhile (· == 0), b = 0 := by
    intro b hb
    simpa using List.mem_rtakeWhile_imp hb
  have hsplit := List.rdropWhile_append_rtakeWhile (l := bytes) (p := (· == 0))
  rw [List.eq_replicate_of_mem hzero] at hsplit
  exact ⟨_, hsplit.symm⟩

theorem getLast?_dropPadding (bytes : Bytes) : (dropPadding bytes).getLast? ≠ some 0 := by
  intro h
  obtain ⟨before, hbefore⟩ := List.getLast?_eq_some_iff.1 h
  have hne : bytes.rdropWhile (· == 0) ≠ [] := by simp [← dropPadding_eq_rdropWhile, hbefore]
  have hlast := List.rdropWhile_last_not (· == 0) bytes hne
  simp [← dropPadding_eq_rdropWhile, hbefore] at hlast

/-- Strings of the same length are the same if they are so without their padding. -/
theorem eq_of_dropPadding_eq {a b : Bytes} (hlength : a.length = b.length)
    (h : dropPadding a = dropPadding b) : a = b := by
  obtain ⟨i, hi⟩ := exists_dropPadding_append a
  obtain ⟨j, hj⟩ := exists_dropPadding_append b
  have hij : i = j := by
    have ha := congrArg List.length hi
    have hb := congrArg List.length hj
    rw [List.length_append, List.length_replicate] at ha hb
    rw [h] at ha
    omega
  rw [hi, hj, h, hij]

theorem dropPadding_ne_nil (h : ∃ b ∈ bytes, b ≠ 0) : dropPadding bytes ≠ [] := by
  obtain ⟨b, hb, hne⟩ := h
  intro hnil
  rw [dropPadding_eq_rdropWhile, List.rdropWhile_eq_nil_iff] at hnil
  exact hne (by simpa using hnil b hb)

theorem notMem_dropPadding {b : UInt8} (h : b ∉ bytes) : b ∉ dropPadding bytes :=
  fun hb => h ((List.rdropWhile_prefix (· == 0) bytes).subset hb)

theorem dropPadding_append_of_ne_nil (front : Bytes) (h : dropPadding back ≠ []) :
    dropPadding (front ++ back) = front ++ dropPadding back := by
  induction front with
  | nil => rfl
  | cons b rest ih =>
    rw [List.cons_append, dropPadding_cons, ih, if_neg, List.cons_append]
    simp [h]

end DropPadding

namespace Key

variable {n : Nat}

theorem utf8_printable (key : Key n) : key.printable.toUTF8.data.toList =
    ((dropPadding key.toBytes).flatMap printByte).map fun c => UInt8.ofNat c.toNat := by
  have visible : ∀ c ∈ (dropPadding key.toBytes).flatMap printByte,
      String.utf8EncodeChar c = [UInt8.ofNat c.toNat] := by
    intro c hc
    obtain ⟨b, _, hb⟩ := List.mem_flatMap.1 hc
    exact utf8EncodeChar_of_visible (visible_of_mem_printByte hb)
  rw [printable, String.toUTF8, String.toByteArray_ofList, List.utf8Encode,
    List.toList_data_toByteArray, List.flatMap_congr visible, List.map_eq_flatMap]

/-- Two keys without a backslash are printed alike only if they are the same. The printed form of
any key consists of visible characters, which show the bytes up to the last that is not zero; the
zero bytes before that one are kept as escapes. -/
theorem printable_tells_keys (n : Nat) :
    (∀ a b : Key n, 0x5c ∉ a.toBytes → 0x5c ∉ b.toBytes → a.printable = b.printable → a = b) ∧
    ∀ key : Key n,
      (∀ byte ∈ key.printable.toUTF8.data.toList, 0x20 ≤ byte ∧ byte ≤ 0x7e) ∧
      (∃ shown count, key.toBytes = shown ++ List.replicate count 0 ∧ shown.getLast? ≠ some 0 ∧
        key.printable = String.ofList (shown.flatMap printByte)) ∧
      ∀ front back, key.toBytes = front ++ 0 :: back → (∃ b ∈ back, b ≠ 0) →
        ∃ rest, key.printable = String.ofList (front.flatMap printByte) ++ "\\x00" ++ rest := by
  refine ⟨?_, fun key => ⟨?_, ?_, ?_⟩⟩
  · intro a b ha hb h
    have hforms : (dropPadding a.toBytes).flatMap printByte =
        (dropPadding b.toBytes).flatMap printByte := by
      simpa [printable] using congrArg String.toList h
    have hshown := congrArg readPrinted hforms
    rw [readPrinted_flatMap_printByte (notMem_dropPadding ha),
      readPrinted_flatMap_printByte (notMem_dropPadding hb)] at hshown
    apply toBytes_injective
    apply eq_of_dropPadding_eq _ hshown
    rw [length_toBytes, length_toBytes]
  · intro byte hbyte
    rw [utf8_printable, List.mem_map] at hbyte
    obtain ⟨c, hc, rfl⟩ := hbyte
    obtain ⟨b, _, hb⟩ := List.mem_flatMap.1 hc
    have hvisible := visible_of_mem_printByte hb
    have hnat : (UInt8.ofNat c.toNat).toNat = c.toNat :=
      UInt8.toNat_ofNat_of_lt (hvisible.2.trans_lt (by decide))
    rw [UInt8.le_iff_toNat_le, UInt8.le_iff_toNat_le, hnat]
    exact hvisible
  · obtain ⟨count, hcount⟩ := exists_dropPadding_append key.toBytes
    exact ⟨_, count, hcount, getLast?_dropPadding key.toBytes, rfl⟩
  · intro front back hbytes hback
    have hback' : dropPadding (0 :: back) = 0 :: dropPadding back := by
      rw [dropPadding_cons, if_neg (fun h => dropPadding_ne_nil hback h.2)]
    have hshown : dropPadding key.toBytes = front ++ 0 :: dropPadding back := by
      rw [hbytes, dropPadding_append_of_ne_nil front (by simp [hback']), hback']
    refine ⟨String.ofList ((dropPadding back).flatMap printByte), ?_⟩
    have hzero : printByte 0 = "\\x00".toList := by decide
    rw [printable, hshown, List.flatMap_append, List.flatMap_cons, hzero, String.ofList_append,
      String.ofList_append, String.ofList_toList, String.append_assoc]

/-- Keys of different strings, with a zero byte that is printed and others that are not. -/
theorem printable_tells_keys_inner_zero :
    ∃ a b : Key 1, ofBytes 1 [97, 0, 98] = .ok a ∧ ofBytes 1 [97, 0, 98, 0, 0] = .ok b ∧
      0x5c ∉ a.toBytes ∧ 0x5c ∉ b.toBytes ∧ a.printable = b.printable ∧ a = b ∧
      ∃ rest, a.printable = String.ofList ([97].flatMap printByte) ++ "\\x00" ++ rest := by
  refine ⟨⟨#v[0x6100620000000000]⟩, ⟨#v[0x6100620000000000]⟩, by decide, by decide, by decide,
    by decide, rfl, ?_, ?_⟩
  · exact (printable_tells_keys 1).1 _ _ (by decide) (by decide) rfl
  · exact ((printable_tells_keys 1).2 _).2.2 [97] [98, 0, 0, 0, 0, 0] (by decide)
      ⟨98, by decide, by decide⟩

/-- The backslash is not marked: the three characters after it may be bytes of their own. -/
example : (⟨#v[0x0100000000000000]⟩ : Key 1).printable =
    (⟨#v[0x5c78303100000000]⟩ : Key 1).printable := by decide

end Key

end FanoutIndex
