import FanoutIndex.Proofs.Layout.Depth

namespace FanoutIndex

variable {w n : Nat}

namespace Layout

def upTo (L : Layout w n) (d : Nat) : Set Nat := {i | ∃ e ≤ d, L.HasDepth i e}

variable {L : Layout w n} {i d e : Nat}

theorem upTo_zero (L : Layout w n) : L.upTo 0 = ∅ := by
  apply Set.eq_empty_of_forall_notMem
  rintro i ⟨e, he, hi⟩
  have hpos := hi.pos
  omega

theorem upTo_mono (h : d ≤ e) : L.upTo d ⊆ L.upTo e := by
  rintro i ⟨f, hf, hi⟩
  exact ⟨f, hf.trans h, hi⟩

/-- Where a link of a node leads; a link without a child leads back to its node. -/
def lead (L : Layout w n) (p : Nat × Fin (w + 1)) : Nat := ((L p.1).link p.2).getD p.1

theorem upTo_succ_subset (L : Layout w n) (d : Nat) :
    L.upTo (d + 1) ⊆ insert FanoutIndex.root (L.lead '' (L.upTo d ×ˢ Set.univ)) := by
  rintro i ⟨e, he, hi⟩
  cases hi with
  | here => exact Set.mem_insert _ _
  | @step j f _ link above down =>
    refine Set.mem_insert_of_mem _ ⟨(j, link), ⟨⟨f, Nat.le_of_succ_le_succ he, above⟩, trivial⟩, ?_⟩
    simp only [lead, down, Option.getD_some]

theorem finite_upTo (L : Layout w n) (d : Nat) : (L.upTo d).Finite := by
  induction d with
  | zero =>
    rw [upTo_zero]
    exact Set.finite_empty
  | succ d ih =>
    have hlinks := ih.prod (Set.finite_univ (α := Fin (w + 1)))
    exact ((hlinks.image L.lead).insert _).subset (L.upTo_succ_subset d)

theorem ncard_upTo_succ_le (L : Layout w n) (d : Nat) :
    (L.upTo (d + 1)).ncard ≤ (w + 1) * (L.upTo d).ncard + 1 := by
  have hlinks := (L.finite_upTo d).prod (Set.finite_univ (α := Fin (w + 1)))
  calc
    _ ≤ (insert FanoutIndex.root (L.lead '' (L.upTo d ×ˢ Set.univ))).ncard :=
      Set.ncard_le_ncard (L.upTo_succ_subset d) ((hlinks.image L.lead).insert _)
    _ ≤ (L.lead '' (L.upTo d ×ˢ Set.univ)).ncard + 1 := Set.ncard_insert_le _ _
    _ ≤ (L.upTo d ×ˢ (Set.univ : Set (Fin (w + 1)))).ncard + 1 :=
      Nat.add_le_add_right (Set.ncard_image_le hlinks) 1
    _ = (w + 1) * (L.upTo d).ncard + 1 := by
      rw [Set.ncard_prod, Set.ncard_univ, Nat.card_fin, Nat.mul_comm]

/-- Down to a depth there are no more nodes than where each has all `w + 1` children. -/
theorem mul_ncard_upTo_lt (L : Layout w n) (d : Nat) : w * (L.upTo d).ncard < (w + 1) ^ d := by
  induction d with
  | zero => simp [upTo_zero]
  | succ d ih =>
    calc
      w * (L.upTo (d + 1)).ncard ≤ w * ((w + 1) * (L.upTo d).ncard + 1) :=
        Nat.mul_le_mul_left w (L.ncard_upTo_succ_le d)
      _ < (w + 1) * (w * (L.upTo d).ncard + 1) := by
        rw [Nat.mul_add_one, Nat.mul_add_one, Nat.mul_left_comm]
        omega
      _ ≤ (w + 1) * (w + 1) ^ d := Nat.mul_le_mul_left _ ih
      _ = (w + 1) ^ (d + 1) := Nat.pow_succ'.symm

/-- Down to the depth of a node there is a node at every depth. -/
theorem HasDepth.le_ncard_upTo (forest : L.Forest) (h : L.HasDepth i d) :
    d ≤ (L.upTo d).ncard := by
  -- A node is not among those above it, since it has one depth only.
  induction h with
  | here =>
    rw [Nat.succ_le_iff, Set.ncard_pos (L.finite_upTo 1)]
    exact ⟨FanoutIndex.root, 1, Nat.le_refl 1, .here⟩
  | @step j e c link above down ih =>
    have hc : L.HasDepth c (e + 1) := .step above down
    have hnew : c ∉ L.upTo e := by
      rintro ⟨f, hf, hf'⟩
      have heq := hc.depth_unique forest hf'
      omega
    have hsubset : insert c (L.upTo e) ⊆ L.upTo (e + 1) :=
      Set.insert_subset ⟨e + 1, Nat.le_refl _, hc⟩ (upTo_mono (Nat.le_succ e))
    calc
      e + 1 ≤ (L.upTo e).ncard + 1 := Nat.succ_le_succ ih
      _ = (insert c (L.upTo e)).ncard := (Set.ncard_insert_of_notMem hnew (L.finite_upTo e)).symm
      _ ≤ (L.upTo (e + 1)).ncard := Set.ncard_le_ncard hsubset (L.finite_upTo (e + 1))

end Layout

end FanoutIndex
