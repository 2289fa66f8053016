import FanoutIndex.Proofs.Tree.Faults

namespace FanoutIndex

variable {w n : Nat} {V : Type}

theorem Node.boundsUnder_eq (node : Node w n V) (bounds : Bounds n) (link : Fin (w + 1)) :
    node.boundsUnder bounds link =
      (if link.val = 0 then pure bounds.lower else some <$> node.leadingKey (link - 1)) >>=
        fun lower => (if link.val = w then pure bounds.upper else some <$> node.leadingKey link) >>=
          fun upper => pure ⟨lower, upper⟩ := by
  rw [boundsUnder]
  split_ifs <;> rfl

namespace Layout

/-- A node is tidy if it is packed and its keys are in order within the bounds. -/
theorem tidy_iff {L : Layout w n} {i : Nat} {bounds : Bounds n} :
    L.Tidy i bounds ↔ (L i).Packed ∧ (L i).Ordered bounds := by
  constructor
  · intro tidy
    refine ⟨⟨tidy.dense, fun link hlink => ?_⟩, tidy.increasing, tidy.inside⟩
    rw [Face.Carries]
    split_ifs with hlt
    · exact tidy.guarded link hlt hlink
    · exact tidy.full (by rwa [show Fin.last w = link from Fin.ext (by simp; omega)])
  · rintro ⟨packed, ordered⟩
    refine ⟨packed.dense, ordered.increasing, ordered.inside, fun link hlt hlink => ?_, ?_⟩
    · have hcarries := packed.carries link hlink
      rwa [Face.Carries, dif_pos hlt] at hcarries
    · intro hlink
      have hcarries := packed.carries _ hlink
      rwa [Face.Carries, dif_neg (by simp)] at hcarries

namespace Tidy

variable {tree : Tree w n V} {i c : Nat} {bounds : Bounds n} {link : Fin (w + 1)}
  (tidy : tree.layout.Tidy i bounds)

include tidy

theorem violation?_eq_none (depth : Nat) : (tree.node i).violation? bounds depth = none := by
  rw [Node.violation?_eq, Face.fault?_eq_none_iff]
  exact tidy_iff.1 tidy

theorem leadingKey_eq {slot : Fin w} {key : Key n} (h : (tree.layout i).key slot = some key) :
    some <$> (tree.node i).leadingKey slot = .ok ((tree.layout i).key slot) := by
  have hget : (tree.node i).leadingKeys[slot.val]? = some key :=
    (Node.getElem?_leadingKeys tidy.dense slot).trans h
  rw [Node.leadingKey, hget, h]
  rfl

theorem boundsUnder_eq (h : (tree.layout i).link link = some c) :
    (tree.node i).boundsUnder bounds link = .ok (bounds.under (tree.layout i) link) := by
  have packed := (tidy_iff.1 tidy).1
  have hchild : (tree.layout i).link link ≠ none := by simp [h]
  have hlower : (if link.val = 0 then pure bounds.lower
      else some <$> (tree.node i).leadingKey (link - 1)) =
      .ok (bounds.under (tree.layout i) link).lower := by
    rcases Nat.eq_zero_or_pos link.val with hzero | hpos
    · simp [Bounds.under, hzero, pure, Except.pure]
    · obtain ⟨slot, key, hslot, hkey⟩ := packed.exists_key_before hchild hpos
      simpa [Bounds.under, ← hslot] using tidy.leadingKey_eq hkey
  have hupper : (if link.val = w then pure bounds.upper
      else some <$> (tree.node i).leadingKey link) =
      .ok (bounds.under (tree.layout i) link).upper := by
    rcases Nat.lt_or_eq_of_le (Nat.le_of_lt_succ link.isLt) with hlt | hlast
    · obtain ⟨slot, key, hslot, hkey⟩ := packed.exists_key_after hchild hlt
      simpa [Bounds.under, ← hslot, slot.isLt.ne] using tidy.leadingKey_eq hkey
    · simp [Bounds.under, hlast, pure, Except.pure]
  rw [Node.boundsUnder_eq, hlower, hupper]
  rfl

end Tidy

end Layout

namespace Tree

variable {tree : Tree w n V}

theorem visitEach_eq {visit : Visit n} (tidy : tree.layout.Tidy visit.node visit.bounds)
    {entries : List (Fin (w + 1) × Nat)} (h : ∀ entry ∈ entries, entry ∈ tree.children visit.node) :
    tree.visitEach visit entries = .ok (entries.map fun entry =>
      ⟨entry.2, visit.bounds.under (tree.layout visit.node) entry.1, visit.depth + 1⟩) := by
  induction entries with
  | nil => rfl
  | cons entry rest ih =>
    rw [List.forall_mem_cons] at h
    rw [visitEach, visitChild, tidy.boundsUnder_eq (Node.mem_children_iff.1 h.1), ih h.2]
    rfl

/-- What a walk with the right bounds on its stack visits is tidy. -/
theorem checkFrom_eq_none (sound : tree.layout.Sound) {stack : List (Visit n)}
    (within : ∀ visit ∈ stack, tree.layout.Within visit.node visit.bounds) :
    tree.checkFrom stack = .ok none := by
  fun_induction checkFrom with
  | case1 => rfl
  | case2 visit rest violation hfound =>
    have hnone := (sound.tidy (within visit List.mem_cons_self)).violation?_eq_none visit.depth
    cases hfound.symm.trans hnone
  | case3 visit rest _ fault hfault =>
    have hok := visitEach_eq (sound.tidy (within visit List.mem_cons_self)) fun _ => id
    cases hfault.symm.trans hok
  | case4 visit rest _ visits hvisits ih =>
    rw [List.forall_mem_cons] at within
    have hok := visitEach_eq (sound.tidy within.1) fun _ => id
    obtain rfl := Except.ok.inj (hvisits.symm.trans hok)
    apply ih
    intro below hmem
    rcases List.mem_append.1 hmem with hmem | hmem
    · obtain ⟨entry, hentry, rfl⟩ := List.mem_map.1 (List.mem_reverse.1 hmem)
      exact .step within.1 (Node.mem_children_iff.1 hentry)
    · exact within.2 below hmem

/-- The check finds nothing wrong with a sound tree. -/
theorem check_eq_none (sound : tree.layout.Sound) : tree.check = .ok none :=
  checkFrom_eq_none sound fun _ h => List.mem_singleton.1 h ▸ .root

end Tree

end FanoutIndex
