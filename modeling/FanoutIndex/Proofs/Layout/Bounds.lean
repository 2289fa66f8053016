import FanoutIndex.Proofs.Layout.Sound
import FanoutIndex.Tree.Check

namespace FanoutIndex

variable {w n : Nat}

/-- The bounds of the keys under a link: the slots on both sides of it, as far as there are any. -/
def Bounds.under (bounds : Bounds n) (f : Face w n) (link : Fin (w + 1)) : Bounds n where
  lower := if h : 0 < link.val then f.key ⟨link - 1, by omega⟩ else bounds.lower
  upper := if h : link.val < w then f.key ⟨link, h⟩ else bounds.upper

theorem Bounds.contains_iff {bounds : Bounds n} {key : Key n} :
    bounds.contains key = true ↔
      (∀ k, bounds.lower = some k → k < key) ∧ ∀ k, bounds.upper = some k → key < k := by
  rw [contains, Bool.and_eq_true, Option.all_eq_true, Option.all_eq_true]
  simp only [beq_iff_eq, Key.lt_iff_compare]

theorem Face.LeadsTo.contains_under {f : Face w n} {key : Key n} {link : Fin (w + 1)}
    {bounds : Bounds n} (leads : f.LeadsTo key link) (inside : bounds.contains key = true) :
    (bounds.under f link).contains key = true := by
  rw [Bounds.contains_iff] at inside ⊢
  constructor
  · intro k hk
    simp only [Bounds.under] at hk
    split_ifs at hk with h
    · obtain ⟨j, hj, hlt⟩ := leads.1 ⟨link - 1, by omega⟩ (Nat.sub_lt h Nat.zero_lt_one)
      obtain rfl := Option.some.inj (hj.symm.trans hk)
      exact hlt
    · exact inside.1 k hk
  · intro k hk
    simp only [Bounds.under] at hk
    split_ifs at hk with h
    · obtain ⟨j, hj, hlt⟩ := leads.2 h
      obtain rfl := Option.some.inj (hj.symm.trans hk)
      exact hlt
    · exact inside.2 k hk

namespace Layout

/-- A node in use has the bounds that the links on the way to it imply. -/
inductive Within (L : Layout w n) : Nat → Bounds n → Prop
  | root : Within L FanoutIndex.root .all
  | step {i c : Nat} {bounds : Bounds n} {link : Fin (w + 1)} (above : Within L i bounds)
      (down : (L i).link link = some c) : Within L c (bounds.under (L i) link)

/-- The entries and the children of a node are where searches look for them. -/
structure Tidy (L : Layout w n) (i : Nat) (bounds : Bounds n) : Prop where
  /-- The occupied slots come first. -/
  dense : ∀ s t : Fin w, s < t → (L i).key t ≠ none → (L i).key s ≠ none
  increasing : ∀ (s t : Fin w) a b, s < t → (L i).key s = some a → (L i).key t = some b → a < b
  inside : ∀ s k, (L i).key s = some k → bounds.contains k = true
  /-- A child hangs left of an occupied slot -/
  guarded : ∀ (l : Fin (w + 1)) (h : l.val < w), (L i).link l ≠ none → (L i).key ⟨l, h⟩ ≠ none
  /-- or right of them all in a full node. -/
  full : (L i).link (Fin.last w) ≠ none → ∀ s, (L i).key s ≠ none

variable {L : Layout w n} {key : Key n} {i d : Nat} {bounds : Bounds n}

theorem Reachable.exists_within (h : L.Reachable i) : ∃ bounds, L.Within i bounds := by
  induction h with
  | root => exact ⟨.all, .root⟩
  | step _ down ih =>
    obtain ⟨bounds, above⟩ := ih
    exact ⟨_, .step above down⟩

theorem Within.reachable (h : L.Within i bounds) : L.Reachable i := by
  induction h with
  | root => exact .root
  | step _ down ih => exact .step ih down

theorem Sound.contains_of_path (sound : L.Sound) (path : L.Path key i d)
    (within : L.Within i bounds) : bounds.contains key = true := by
  -- A node has one parent, so the path and the bounds come down the same links.
  induction path generalizing bounds with
  | root =>
    cases within with
    | root => rfl
    | step _ down => exact absurd (sound.forward _ _ _ down) (Nat.not_lt_zero _)
  | step _ leads ih =>
    cases within with
    | root => exact absurd (sound.forward _ _ _ leads.2) (Nat.not_lt_zero _)
    | step above down =>
      obtain ⟨rfl, rfl⟩ := sound.oneParent _ _ _ _ _ leads.2 down
      exact leads.1.contains_under (ih above)

theorem Sound.tidy (sound : L.Sound) (within : L.Within i bounds) : L.Tidy i bounds where
  dense := sound.dense
  increasing := by
    intro s t a b hst ha hb
    obtain ⟨j, hj, hlt⟩ := sound.ordered i s t b hst hb
    obtain rfl := Option.some.inj (hj.symm.trans ha)
    exact hlt
  inside := by
    intro s k hk
    obtain ⟨d, path⟩ := sound.routed i s k within.reachable hk
    exact sound.contains_of_path path within
  guarded := by
    intro l h hl
    obtain ⟨c, hc⟩ := Option.ne_none_iff_exists'.1 hl
    obtain ⟨k, hk⟩ := sound.placed i l c hc ⟨l, h⟩ (Nat.le_refl _)
    simp [hk]
  full := by
    intro hl s
    obtain ⟨c, hc⟩ := Option.ne_none_iff_exists'.1 hl
    obtain ⟨k, hk⟩ := sound.placed i _ c hc s s.isLt.le
    simp [hk]

end Layout

end FanoutIndex
