import FanoutIndex.Proofs.Tree.Inorder
import FanoutIndex.Proofs.Tree.Visits

namespace FanoutIndex

variable {w n : Nat} {V : Type}

namespace Face

variable (f : Face w n)

def IsGap (s : Fin w) : Prop := f.key s ≠ none ∧ ∃ t < s, f.key t = none

def IsUnordered (s : Fin w) : Prop :=
  ∃ t : Fin w, t.val + 1 = s.val ∧ ∃ a ∈ f.key t, ∃ b ∈ f.key s, b ≤ a

def IsStray (bounds : Bounds n) (s : Fin w) : Prop := ∃ k ∈ f.key s, bounds.contains k = false

/-- A link with a child that no search goes down. -/
def IsMisplaced (link : Fin (w + 1)) : Prop := f.link link ≠ none ∧ ¬f.Carries link

instance : DecidablePred f.IsGap := fun _ => inferInstanceAs (Decidable (_ ∧ _))

instance : DecidablePred f.IsUnordered := fun _ => inferInstanceAs (Decidable (∃ _, _))

instance (bounds : Bounds n) : DecidablePred (f.IsStray bounds) := fun s =>
  inferInstanceAs (Decidable (∃ k ∈ f.key s, _))

instance : DecidablePred f.Carries := fun link =>
  inferInstanceAs (Decidable (if h : link.val < w then f.key ⟨link, h⟩ ≠ none else _))

instance : DecidablePred f.IsMisplaced := fun _ => inferInstanceAs (Decidable (_ ∧ _))

/-- The first gap, else the first key out of order, else the first out of bounds, else the first
misplaced child. -/
def fault? (bounds : Bounds n) (depth : Nat) : Option Violation :=
  ((Fin.find? fun s => f.IsGap s).map fun s => .gap depth s.val).or <|
    ((Fin.find? fun s => f.IsUnordered s).map fun s => .unordered depth s.val).or <|
      ((Fin.find? fun s => f.IsStray bounds s).map fun s => .outOfRange depth s.val).or <|
        (Fin.find? fun link => f.IsMisplaced link).map fun link => .misplacedChild depth link.val

variable {f} {bounds : Bounds n} {link : Fin (w + 1)}

theorem dense_iff : f.Dense ↔ ∀ s, ¬f.IsGap s := by
  constructor
  · rintro dense s ⟨hs, t, hlt, ht⟩
    exact dense t s hlt hs ht
  · intro h s t hlt ht hs
    exact h t ⟨ht, s, hlt, hs⟩

/-- Keys that increase from each slot to the next increase throughout. -/
theorem Dense.increasing_iff (dense : f.Dense) :
    (∀ (s t : Fin w) a b, s < t → f.key s = some a → f.key t = some b → a < b) ↔
      ∀ s, ¬f.IsUnordered s := by
  constructor
  · rintro increasing s ⟨t, hts, a, ha, b, hb, hle⟩
    exact absurd hle (not_le.2 (increasing t s a b (by omega) ha hb))
  · intro ordered s t a b hst ha hb
    -- Induction on how far the slots are apart: the one before the last is occupied too.
    obtain ⟨t, ht⟩ := t
    induction t generalizing b with
    | zero => exact absurd hst (Nat.not_lt_zero _)
    | succ t ih =>
      obtain ⟨c, hc⟩ := Option.ne_none_iff_exists'.1
        (dense ⟨t, by omega⟩ ⟨t + 1, ht⟩ (Nat.lt_succ_self t) (by simp [hb]))
      have hcb : c < b := by
        by_contra hle
        exact ordered _ ⟨_, rfl, c, hc, b, hb, not_lt.1 hle⟩
      rcases Nat.lt_succ_iff_lt_or_eq.1 (show s.val < t + 1 from hst) with hlt | heq
      · exact (ih c _ hlt hc).trans hcb
      · rw [show s = ⟨t, by omega⟩ from Fin.ext heq] at ha
        rwa [Option.some.inj (ha.symm.trans hc)]

theorem inside_iff :
    (∀ s k, f.key s = some k → bounds.contains k = true) ↔ ∀ s, ¬f.IsStray bounds s := by
  simp [IsStray, Option.mem_def]

theorem carries_iff :
    (∀ link, f.link link ≠ none → f.Carries link) ↔ ∀ link, ¬f.IsMisplaced link := by
  simp [IsMisplaced]

/-- A node without a fault is packed, and its keys are in order within the bounds. -/
theorem fault?_eq_none_iff {depth : Nat} :
    f.fault? bounds depth = none ↔ f.Packed ∧ f.Ordered bounds := by
  have hnone : f.fault? bounds depth = none ↔ (∀ s, ¬f.IsGap s) ∧ (∀ s, ¬f.IsUnordered s) ∧
      (∀ s, ¬f.IsStray bounds s) ∧ ∀ link, ¬f.IsMisplaced link := by
    simp only [fault?, Option.or_eq_none_iff, Option.map_eq_none_iff, Fin.find?_eq_none_iff,
      decide_eq_false_iff_not]
  rw [hnone, ← dense_iff, ← inside_iff, ← carries_iff]
  constructor
  · rintro ⟨dense, ordered, inside, carries⟩
    exact ⟨⟨dense, carries⟩, dense.increasing_iff.2 ordered, inside⟩
  · rintro ⟨packed, ordered⟩
    exact ⟨packed.dense, packed.dense.increasing_iff.1 ordered.increasing, ordered.inside,
      packed.carries⟩

end Face

/-- The first of some entries that has a property, and the first slot that has another, if the
entries are told by the slots from some one on. -/
theorem map_findIdx?_eq {α : Type} {entries : List α} {p : α → Bool} {q : Fin w → Bool} (first : Nat)
    (length : entries.length ≤ w - first)
    (same : ∀ s, q s = true ↔ ∃ i, s.val = first + i ∧ ∃ x ∈ entries[i]?, p x = true) :
    (entries.findIdx? p).map (first + ·) = (Fin.find? q).map Fin.val := by
  cases hfind : entries.findIdx? p with
  | none =>
    rw [List.findIdx?_eq_none_iff] at hfind
    have hnone : Fin.find? q = none := by
      rw [Fin.find?_eq_none_iff]
      intro s
      rw [← Bool.not_eq_true, same]
      rintro ⟨i, _, x, hx, hp⟩
      exact absurd hp (by simp [hfind x (List.mem_of_getElem? hx)])
    rw [hnone]
    rfl
  | some i =>
    obtain ⟨hi, hp, hbefore⟩ := List.findIdx?_eq_some_iff_getElem.1 hfind
    have hsome : Fin.find? q = some ⟨first + i, by omega⟩ := by
      rw [Fin.find?_eq_some_iff, same]
      refine ⟨⟨i, rfl, _, List.getElem?_eq_getElem hi, hp⟩, ?_⟩
      intro s hs
      rw [← Bool.not_eq_true, same]
      rintro ⟨j, hj, x, hx, hpx⟩
      obtain ⟨hlt, rfl⟩ := List.getElem?_eq_some_iff.1 hx
      exact hbefore j (by simp only [Fin.lt_def] at hs; omega) hpx
    rw [hsome]
    rfl

namespace Node

variable (node : Node w n V) {slot : Fin w} {link : Fin (w + 1)} {key : Key n}

theorem lt_of_mem_take {count : Nat} (h : slot ∈ (List.finRange w).take count) :
    slot.val < count := by
  obtain ⟨i, hi, rfl⟩ := List.mem_take_iff_getElem.1 h
  simpa using (lt_min_iff.1 hi).1

theorem le_of_mem_drop {count : Nat} (h : slot ∈ (List.finRange w).drop count) :
    count ≤ slot.val := by
  obtain ⟨i, hi, rfl⟩ := List.mem_drop_iff_getElem.1 h
  simp

theorem isOccupied_iff : node.isOccupied slot = true ↔ node.face.key slot ≠ none := by
  rw [ne_eq, face_key_eq_none_iff, isOccupied, Option.isSome_iff_ne_none]

/-- A gap is an occupied slot after the first vacant one. -/
theorem isGap_iff :
    node.face.IsGap slot ↔ node.isOccupied slot = true ∧ node.occupied < slot.val := by
  rw [Face.IsGap, isOccupied_iff]
  refine and_congr_right fun _ => ⟨?_, fun h => ?_⟩
  · rintro ⟨t, hlt, ht⟩
    by_contra hle
    obtain ⟨key, hkey⟩ := node.face_key_of_lt_occupied (show t.val < node.occupied by omega)
    cases hkey.symm.trans ht
  · exact ⟨⟨node.occupied, by omega⟩, h, node.face_key_occupied (by omega)⟩

theorem gap?_eq : node.gap? = Fin.find? fun s => node.face.IsGap s := by
  have hbefore : ((List.finRange w).take node.occupied).find? (fun s => node.face.IsGap s) =
      none := by
    rw [List.find?_eq_none]
    intro s hs
    rw [decide_eq_true_eq, isGap_iff]
    exact fun h => Nat.lt_asymm h.2 (lt_of_mem_take hs)
  rw [Fin.find?_eq_find?_finRange, ← List.take_append_drop node.occupied (List.finRange w),
    List.find?_append, hbefore, Option.none_or, gap?]
  apply List.find?_congr
  intro s hs
  rw [Bool.eq_iff_iff, decide_eq_true_eq, isGap_iff]
  refine (and_iff_left_of_imp fun hocc => ?_).symm
  refine Nat.lt_of_le_of_ne (le_of_mem_drop hs) fun heq => ?_
  have hvacant := node.face_key_occupied (heq ▸ s.isLt)
  simp only [heq] at hvacant
  exact node.isOccupied_iff.1 hocc hvacant

theorem unorderedFrom_eq (slot : Nat) (keys : List (Key n)) :
    unorderedFrom slot keys =
      ((keys.zip keys.tail).findIdx? fun pair => pair.2 ≤ pair.1).map (slot + ·) := by
  fun_induction unorderedFrom with
  | case1 slot a b rest hlt ih =>
    have hab : a < b := Key.lt_iff_compare.2 (by simpa using hlt)
    rw [ih]
    simp [List.findIdx?_cons, not_le.2 hab, Function.comp_def, Nat.add_comm, Nat.add_left_comm]
  | case2 slot a b rest hnot =>
    have hba : b ≤ a := not_lt.1 fun hab => hnot (by simpa using Key.lt_iff_compare.1 hab)
    simp [List.findIdx?_cons, hba]
  | case3 keys slot hshort =>
    rcases keys with _ | ⟨a, _ | ⟨b, rest⟩⟩
    · rfl
    · rfl
    · exact absurd rfl (hshort a b rest)

theorem leadingKeys_eq (node : Node w n V) :
    node.leadingKeys = ((List.finRange w).take node.occupied).map node.keys.get := by
  rw [leadingKeys, keysAt, ← List.filterMap_eq_map]
  apply List.filterMap_congr
  intro slot hslot
  obtain ⟨key, hkey⟩ := node.face_key_of_lt_occupied (lt_of_mem_take hslot)
  rw [Function.comp, node.keys_eq_of_face_key hkey]
  exact hkey

theorem length_leadingKeys : node.leadingKeys.length = node.occupied := by
  simp [leadingKeys_eq, node.occupied_le]

section Dense

variable {node} (dense : node.face.Dense)

include dense

theorem getElem?_leadingKeys (slot : Fin w) : node.leadingKeys[slot.val]? = node.face.key slot := by
  rcases Nat.lt_or_ge slot.val node.occupied with hlt | hge
  · obtain ⟨key, hkey⟩ := node.face_key_of_lt_occupied hlt
    rw [leadingKeys_eq, List.getElem?_map, List.getElem?_take_of_lt hlt, hkey,
      ← node.keys_eq_of_face_key hkey]
    simp
  · rw [List.getElem?_eq_none (node.length_leadingKeys ▸ hge), eq_comm]
    by_contra hne
    obtain ⟨key, hkey⟩ := Option.ne_none_iff_exists'.1 hne
    exact Nat.not_lt.2 hge ((node.exists_face_key_iff dense).1 ⟨key, hkey⟩)

theorem unorderedFrom_leadingKeys : unorderedFrom 1 node.leadingKeys =
    (Fin.find? fun s => node.face.IsUnordered s).map Fin.val := by
  rw [unorderedFrom_eq]
  apply map_findIdx?_eq
  · rw [List.length_zip, List.length_tail, length_leadingKeys]
    have := node.occupied_le
    omega
  · intro s
    simp only [decide_eq_true_eq]
    constructor
    · rintro ⟨t, hts, a, ha, b, hb, hle⟩
      refine ⟨t, by omega, (a, b), List.getElem?_zip_eq_some.2 ⟨?_, ?_⟩, hle⟩
      · rw [getElem?_leadingKeys dense]
        exact ha
      · rw [List.getElem?_tail, hts, getElem?_leadingKeys dense]
        exact hb
    · rintro ⟨i, hi, ⟨a, b⟩, hpair, hle⟩
      obtain ⟨ha, hb⟩ := List.getElem?_zip_eq_some.1 hpair
      rw [List.getElem?_tail, show i + 1 = s.val by omega, getElem?_leadingKeys dense] at hb
      have hlt : i < w := by omega
      have ht := getElem?_leadingKeys dense ⟨i, hlt⟩
      exact ⟨⟨i, hlt⟩, by simp [hi, Nat.add_comm], a, ht.symm.trans ha, b, hb, hle⟩

theorem findIdx?_leadingKeys (bounds : Bounds n) :
    (node.leadingKeys.findIdx? fun key => !bounds.contains key) =
      (Fin.find? fun s => node.face.IsStray bounds s).map Fin.val := by
  have hfirst := map_findIdx?_eq (p := fun key => !bounds.contains key) 0
    (node.length_leadingKeys ▸ node.occupied_le : node.leadingKeys.length ≤ w)
    (q := fun s => node.face.IsStray bounds s) fun s => by
      simp [Face.IsStray, getElem?_leadingKeys dense]
  simpa using hfirst

theorem isReachable_iff : node.isReachable link = true ↔ node.face.Carries link := by
  have hkey (slot : Fin w) : node.face.key slot ≠ none ↔ slot.val < node.occupied := by
    rw [← node.exists_face_key_iff dense, Option.ne_none_iff_exists']
  simp only [isReachable, Face.Carries, hkey]
  split_ifs with hlast hlt hlt
  · omega
  · rw [beq_iff_eq]
    constructor
    · exact fun hfull slot => slot.isLt.trans_eq hfull.symm
    · intro hall
      by_contra hne
      have hlt := Nat.lt_of_le_of_ne node.occupied_le hne
      exact Nat.lt_irrefl _ (hall ⟨_, hlt⟩)
  · simp
  · omega

theorem misplaced?_eq : node.misplaced? = Fin.find? fun l => node.face.IsMisplaced l := by
  have hsame (l : Fin (w + 1)) : ((node.links.get l).map fun child => (l, child)).any
      (fun entry => !node.isReachable entry.1) = decide (node.face.IsMisplaced l) := by
    rw [Bool.eq_iff_iff, decide_eq_true_eq, Face.IsMisplaced, ← isReachable_iff dense]
    change _ ↔ node.links.get l ≠ none ∧ _
    cases node.links.get l with
    | none => simp
    | some child => simp
  rw [misplaced?, children, List.find?_filterMap, Fin.find?_eq_find?_finRange]
  simp only [hsame]
  cases hfind : (List.finRange (w + 1)).find? fun l => decide (node.face.IsMisplaced l) with
  | none => rfl
  | some l =>
    have hmisplaced : node.face.IsMisplaced l := by simpa using List.find?_some hfind
    obtain ⟨child, hchild⟩ := Option.ne_none_iff_exists'.1 hmisplaced.1
    have hlink : node.links.get l = some child := hchild
    simp [hlink]

end Dense

/-- The test of a node reports its first fault. -/
theorem violation?_eq (bounds : Bounds n) (depth : Nat) :
    node.violation? bounds depth = node.face.fault? bounds depth := by
  rw [violation?, Face.fault?, gap?_eq]
  cases hgap : Fin.find? fun s => decide (node.face.IsGap s) with
  | some s => rfl
  | none =>
    have dense : node.face.Dense := by
      rw [Face.dense_iff]
      simpa [Fin.find?_eq_none_iff] using hgap
    rw [unorderedFrom_leadingKeys dense, findIdx?_leadingKeys dense, misplaced?_eq dense]
    cases Fin.find? fun s => decide (node.face.IsUnordered s) <;>
      cases Fin.find? fun s => decide (node.face.IsStray bounds s) <;>
        cases Fin.find? fun l => decide (node.face.IsMisplaced l) <;> rfl

end Node

end FanoutIndex
