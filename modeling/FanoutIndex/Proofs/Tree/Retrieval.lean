import FanoutIndex.Proofs.Tree.FirstViolation
import FanoutIndex.Proofs.Tree.Trail

namespace FanoutIndex

variable {w n : Nat} {V : Type}

namespace Face

variable {f : Face w n} {below : Fin (w + 1) → List (Key n)} {key k : Key n} {s : Fin w}
  {link : Fin (w + 1)} {position : Nat} (sorted : (f.interleave below).Pairwise (· < ·))

include sorted

theorem not_lt_of_mem_part (hs : s.val = link.val) (hk : f.key s = some k)
    (h : key ∈ below link ++ f.keyAfter link) : ¬k < key := by
  rcases List.mem_append.1 h with h | h
  · exact lt_asymm
      (((pairwise_interleave_iff.1 sorted).1 link).2 key h k (mem_keyAfter_iff.2 ⟨s, hs, hk⟩))
  · obtain ⟨t, ht, hkey⟩ := mem_keyAfter_iff.1 h
    obtain rfl : s = t := Fin.ext (hs.trans ht.symm)
    cases hk.symm.trans hkey
    exact lt_irrefl key

theorem le_of_precedes (hp : f.Precedes key position) (hw : position ≤ w)
    (h : key ∈ below link ++ f.keyAfter link) : position ≤ link.val := by
  by_contra hlt
  have hlink : link.val < w := by omega
  obtain ⟨k, hk, hlow⟩ := hp ⟨link, hlink⟩ (Nat.lt_of_not_le hlt)
  exact not_lt_of_mem_part sorted rfl hk h hlow

theorem mem_below_of_leadsTo {l : Fin (w + 1)} (hl : f.LeadsTo key l)
    (h : key ∈ below link ++ f.keyAfter link) : key ∈ below l := by
  have hbefore := le_of_precedes sorted hl.1 (Nat.le_of_lt_succ l.isLt) h
  have hafter : link.val ≤ l.val := by
    by_contra hlt
    obtain ⟨k, hk, hlow⟩ := hl.2 (by omega)
    exact lt_asymm hlow ((pairwise_interleave_iff.1 sorted).2 l link (by omega) k
      (mem_part rfl hk) key h)
  obtain rfl : l = link := Fin.ext (Nat.le_antisymm hbefore hafter)
  refine (List.mem_append.1 h).resolve_right fun hkey => ?_
  obtain ⟨s, hs, hk⟩ := mem_keyAfter_iff.1 hkey
  obtain ⟨k, hk', hlow⟩ := hl.2 (hs ▸ s.isLt)
  rw [show (⟨l, hs ▸ s.isLt⟩ : Fin w) = s from Fin.ext hs.symm, hk] at hk'
  cases hk'
  exact lt_irrefl key hlow

/-- A key that stands in a packed node or below it does not lead to a vacant slot. -/
theorem Packed.not_vacant (packed : f.Packed)
    (hbelow : ∀ link, below link ≠ [] → f.link link ≠ none) (hv : f.Routes key (.vacant s))
    (h : key ∈ below link ++ f.keyAfter link) : False := by
  have hle := le_of_precedes sorted hv.1 s.isLt.le h
  -- All slots up to one that is occupied are, so no slot from the vacant one on is.
  have hvacant (t : Fin w) (ht : s.val ≤ t.val) : f.key t = none := by
    rcases Nat.lt_or_eq_of_le ht with hlt | heq
    · by_contra hkey
      exact packed.dense s t hlt hkey hv.2
    · rw [← Fin.ext heq]
      exact hv.2
  rcases List.mem_append.1 h with h | h
  · have hcarries := packed.carries link (hbelow link (List.ne_nil_of_mem h))
    rw [Carries] at hcarries
    split_ifs at hcarries with hlt
    · exact hcarries (hvacant ⟨link, hlt⟩ hle)
    · exact hcarries s hv.2
  · obtain ⟨t, ht, hk⟩ := mem_keyAfter_iff.1 h
    cases hk.symm.trans (hvacant t (by omega))

end Face

namespace Tree

variable {tree : Tree w n V} {key : Key n} {value : V} {j : Nat}

/-- A search for a key that stands below a node ends at its slot. -/
theorem exists_targetFrom_update {i d : Nat}
    (packed : ∀ j e, tree.layout.Below i d j e → (tree.layout j).Packed)
    (sorted : (tree.inorderFrom i).Pairwise (· < ·)) (h : key ∈ tree.inorderFrom i) :
    ∃ slot, (tree.targetFrom key i).2 = .update slot := by
  obtain ⟨hpacked, hbelow⟩ := packed_below_iff.1 packed
  have hroutes : (tree.layout i).Routes key _ := (tree.node i).routes_route key
  rw [inorderFrom_eq] at sorted h
  obtain ⟨link, _, hpart⟩ := List.mem_flatMap.1 h
  cases hturn : ((tree.node i).route key).turn with
  | here place =>
    rw [turn_eq_here_iff.1 hturn] at hroutes
    rw [(trailFrom_of_here hturn).2]
    cases place with
    | update slot => exact ⟨slot, rfl⟩
    | fill slot =>
      exact (hpacked.not_vacant sorted (tree.link_ne_none_of_inorderUnder i) hroutes hpart).elim
    | attach l =>
      have hmem := Face.mem_below_of_leadsTo sorted hroutes.1 hpart
      exact absurd hroutes.2 (tree.link_ne_none_of_inorderUnder i l (List.ne_nil_of_mem hmem))
  | down child =>
    have hlt := tree.lt_of_turn_down hturn
    obtain ⟨l, hroute⟩ := turn_eq_down_iff.1 hturn
    rw [hroute] at hroutes
    have hmem := Face.mem_below_of_leadsTo sorted hroutes.1 hpart
    have hchild : tree.inorderUnder i l = tree.inorderFrom child := by
      rw [inorderUnder, hroutes.2, Option.elim_some]
    have hsorted := ((Face.pairwise_interleave_iff.1 sorted).1 l).1
    rw [hchild] at hmem hsorted
    rw [(trailFrom_of_down hturn).2]
    exact exists_targetFrom_update (hbelow l child hroutes.2) hsorted hmem
  termination_by tree.nodes.size - i

theorem mem_inorder_of_reachable (hj : tree.layout.Reachable j) (h : key ∈ tree.inorderFrom j) :
    key ∈ tree.inorder := by
  induction hj with
  | root => exact h
  | @step i c link before down ih =>
    refine ih ?_
    rw [inorderFrom_eq]
    refine Face.mem_interleave_iff.2 (.inl ⟨link, ?_⟩)
    rwa [inorderUnder, down, Option.elim_some]

theorem mem_inorder_of_holds (h : tree.Holds key value) : key ∈ tree.inorder := by
  obtain ⟨i, slot, hheld⟩ := h
  refine mem_inorder_of_reachable hheld.1 ?_
  rw [inorderFrom_eq]
  exact Face.mem_interleave_iff.2 (.inr ⟨slot, hheld.face_key⟩)

section Checked

variable (checked : tree.check = .ok none)

include checked

theorem packed_and_sorted :
    (∀ j e, tree.layout.HasDepth j e → (tree.layout j).Packed) ∧
      tree.inorder.Pairwise (· < ·) := by
  rw [check, checkFrom_eq, Except.ok.injEq, List.findSome?_singleton,
    firstViolation_eq_none_iff] at checked
  exact ⟨checked.1, checked.2.1⟩

theorem exists_target_update (h : tree.Holds key value) :
    ∃ slot, (tree.target key).2 = .update slot := by
  obtain ⟨packed, sorted⟩ := packed_and_sorted checked
  exact exists_targetFrom_update packed sorted (mem_inorder_of_holds h)

/-- A key that would take a vacant slot of a checked tree is above all keys of the node. -/
theorem lt_of_target_fill {slot s : Fin w} {k : Key n} (hfill : (tree.target key).2 = .fill slot)
    (hk : (tree.node (tree.target key).1).key? s = some k) : k < key := by
  have packed := (packed_and_sorted checked).1 _ _ (tree.path_target key).hasDepth
  have hroutes := tree.routes_target key
  rw [hfill] at hroutes
  have hlt : s.val < slot.val := by
    by_contra hle
    rcases Nat.lt_or_eq_of_le (Nat.le_of_not_lt hle) with hlt | heq
    · exact packed.dense slot s hlt (fun hnone => by cases hk.symm.trans hnone) hroutes.2
    · rw [← Fin.ext heq] at hk
      cases hk.symm.trans hroutes.2
  obtain ⟨j, hj, hlow⟩ := hroutes.1 s hlt
  cases hj.symm.trans hk
  exact hlow

end Checked

end Tree

end FanoutIndex
