import FanoutIndex.Proofs.Layout.Bounds
import FanoutIndex.Proofs.Layout.Depth

/-!
# The keys of a tree in order

The keys of a tree in order are those below the first link of the root, the key in its first slot,
those below its second link, and so on. They increase if and only if in every node the keys increase
and lie within the bounds that the links above it imply.
-/

namespace FanoutIndex

variable {w n : Nat} {V : Type}

namespace Face

variable (f : Face w n)

/-- A search can go down a link: the slot of its number is occupied, or it is the last link of a
full node. -/
def Carries (link : Fin (w + 1)) : Prop :=
  if h : link.val < w then f.key ⟨link, h⟩ ≠ none else ∀ s, f.key s ≠ none

/-- The occupied slots come first, and a child hangs only where a search can go down. -/
structure Packed : Prop where
  dense : f.Dense
  carries : ∀ link, f.link link ≠ none → f.Carries link

/-- The keys in the slots increase and lie within bounds. -/
structure Ordered (bounds : Bounds n) : Prop where
  increasing : ∀ (s t : Fin w) a b, s < t → f.key s = some a → f.key t = some b → a < b
  inside : ∀ s k, f.key s = some k → bounds.contains k = true

def keyAfter (link : Fin (w + 1)) : List (Key n) :=
  if h : link.val < w then (f.key ⟨link, h⟩).toList else []

/-- The keys in the slots, each between those below the links on its two sides. -/
def interleave (below : Fin (w + 1) → List (Key n)) : List (Key n) :=
  (List.finRange (w + 1)).flatMap fun link => below link ++ f.keyAfter link

variable {f} {below : Fin (w + 1) → List (Key n)} {bounds : Bounds n} {link : Fin (w + 1)}
  {s : Fin w} {x y k : Key n}

theorem mem_keyAfter_iff : k ∈ f.keyAfter link ↔ ∃ s : Fin w, s.val = link.val ∧ f.key s = some k := by
  rw [keyAfter]
  split_ifs with h
  · rw [Option.mem_toList]
    constructor
    · exact fun hk => ⟨_, rfl, hk⟩
    · rintro ⟨s, hs, hk⟩
      rwa [show s = ⟨link, h⟩ from Fin.ext hs] at hk
  · simp only [List.not_mem_nil, false_iff, not_exists, not_and]
    intro s hs
    exact absurd (hs ▸ s.isLt) h

theorem mem_interleave_iff :
    k ∈ f.interleave below ↔ (∃ link, k ∈ below link) ∨ ∃ s, f.key s = some k := by
  simp only [interleave, List.mem_flatMap, List.mem_finRange, true_and, List.mem_append,
    mem_keyAfter_iff, exists_or]
  refine or_congr_right ?_
  constructor
  · rintro ⟨_, s, _, hk⟩
    exact ⟨s, hk⟩
  · rintro ⟨s, hk⟩
    exact ⟨s.castSucc, s, rfl, hk⟩

/-- What comes first is less, be it within the part of one link or across two. -/
theorem pairwise_interleave_iff : (f.interleave below).Pairwise (· < ·) ↔
    (∀ link, (below link).Pairwise (· < ·) ∧
      ∀ x ∈ below link, ∀ y ∈ f.keyAfter link, x < y) ∧
    ∀ l m, l < m → ∀ x ∈ below l ++ f.keyAfter l, ∀ y ∈ below m ++ f.keyAfter m, x < y := by
  have hkey (link : Fin (w + 1)) : (f.keyAfter link).Pairwise (· < ·) := by
    rw [keyAfter]
    split_ifs with h
    · cases f.key ⟨link, h⟩ <;> simp
    · exact .nil
  rw [interleave, List.pairwise_flatMap]
  exact and_congr (by simp [List.pairwise_append, hkey]) List.pairwise_ofFn

theorem lt_of_contains_under (h : (bounds.under f link).contains x = true)
    (hs : s.val + 1 = link.val) (hk : f.key s = some k) : k < x :=
  (Bounds.contains_iff.1 h).1 k (by simp [Bounds.under, ← hs, hk])

theorem gt_of_contains_under (h : (bounds.under f link).contains x = true)
    (hs : s.val = link.val) (hk : f.key s = some k) : x < k :=
  (Bounds.contains_iff.1 h).2 k (by simp [Bounds.under, ← hs, hk])

theorem mem_part (hl : s.val = link.val) (h : f.key s = some k) :
    k ∈ below link ++ f.keyAfter link :=
  List.mem_append_right _ (mem_keyAfter_iff.2 ⟨s, hl, h⟩)

theorem contains_under_of_sorted (sorted : (f.interleave below).Pairwise (· < ·))
    (inside : bounds.contains x = true) (hx : x ∈ below link) :
    (bounds.under f link).contains x = true := by
  obtain ⟨hparts, hacross⟩ := pairwise_interleave_iff.1 sorted
  rw [Bounds.contains_iff] at inside ⊢
  constructor
  · intro k hk
    simp only [Bounds.under] at hk
    split_ifs at hk with hpos
    · let before : Fin (w + 1) := ⟨link - 1, by omega⟩
      exact hacross before link (Nat.sub_lt hpos Nat.zero_lt_one) k (mem_part rfl hk) x
        (List.mem_append_left _ hx)
    · exact inside.1 k hk
  · intro k hk
    simp only [Bounds.under] at hk
    split_ifs at hk with hlt
    · exact (hparts link).2 x hx k (mem_keyAfter_iff.2 ⟨_, rfl, hk⟩)
    · exact inside.2 k hk

namespace Packed

variable (packed : f.Packed)

include packed

theorem exists_key_before (h : f.link link ≠ none) (hpos : 0 < link.val) :
    ∃ (s : Fin w) (k : Key n), s.val + 1 = link.val ∧ f.key s = some k := by
  have hprev : link.val - 1 < w := by omega
  have hne : f.key ⟨link.val - 1, hprev⟩ ≠ none := by
    have hcarries := packed.carries link h
    rw [Carries] at hcarries
    split_ifs at hcarries with hlt
    · exact packed.dense _ _ (Nat.sub_lt hpos Nat.zero_lt_one) hcarries
    · exact hcarries _
  obtain ⟨k, hk⟩ := Option.ne_none_iff_exists'.1 hne
  exact ⟨_, k, Nat.sub_add_cancel hpos, hk⟩

theorem exists_key_after (h : f.link link ≠ none) (hlt : link.val < w) :
    ∃ (s : Fin w) (k : Key n), s.val = link.val ∧ f.key s = some k := by
  have hcarries := packed.carries link h
  rw [Carries, dif_pos hlt] at hcarries
  obtain ⟨k, hk⟩ := Option.ne_none_iff_exists'.1 hcarries
  exact ⟨_, k, rfl, hk⟩

/-- The bounds under a link with a child are no wider than those of its node. -/
theorem contains_of_under (ordered : f.Ordered bounds) (h : f.link link ≠ none)
    (hx : (bounds.under f link).contains x = true) : bounds.contains x = true := by
  have hends := Bounds.contains_iff.1 hx
  rw [Bounds.contains_iff]
  constructor
  · intro a ha
    rcases Nat.eq_zero_or_pos link.val with hzero | hpos
    · exact hends.1 a (by simpa [Bounds.under, hzero] using ha)
    · obtain ⟨s, k, hs, hk⟩ := packed.exists_key_before h hpos
      have hak := (Bounds.contains_iff.1 (ordered.inside s k hk)).1 a ha
      exact hak.trans (lt_of_contains_under hx hs hk)
  · intro b hb
    rcases Nat.lt_or_ge link.val w with hlt | hge
    · obtain ⟨s, k, hs, hk⟩ := packed.exists_key_after h hlt
      have hkb := (Bounds.contains_iff.1 (ordered.inside s k hk)).2 b hb
      exact (gt_of_contains_under hx hs hk).trans hkb
    · exact hends.2 b (by simpa [Bounds.under, Nat.not_lt.2 hge] using hb)

variable (hbelow : ∀ link, below link ≠ [] → f.link link ≠ none)
  (hunder : ∀ link, ∀ x ∈ below link, (bounds.under f link).contains x = true)

include hbelow hunder

theorem exists_ge_of_part (hlt : link.val < w) (hx : x ∈ below link ++ f.keyAfter link) :
    ∃ (s : Fin w) (k : Key n), s.val = link.val ∧ f.key s = some k ∧ x ≤ k := by
  rcases List.mem_append.1 hx with hx | hx
  · obtain ⟨s, k, hs, hk⟩ := packed.exists_key_after (hbelow link (List.ne_nil_of_mem hx)) hlt
    exact ⟨s, k, hs, hk, (gt_of_contains_under (hunder link x hx) hs hk).le⟩
  · obtain ⟨s, hs, hk⟩ := mem_keyAfter_iff.1 hx
    exact ⟨s, x, hs, hk, le_rfl⟩

theorem lt_of_part (ordered : f.Ordered bounds) (hs : f.key s = some k)
    (hlt : s.val < link.val) (hy : y ∈ below link ++ f.keyAfter link) : k < y := by
  rcases List.mem_append.1 hy with hy | hy
  · obtain ⟨t, j, ht, hj⟩ :=
      packed.exists_key_before (hbelow link (List.ne_nil_of_mem hy)) (Nat.zero_lt_of_lt hlt)
    have hjy := lt_of_contains_under (hunder link y hy) ht hj
    -- The slot before the link may be the given one or lie further to the right.
    rcases Nat.lt_or_eq_of_le (show s.val ≤ t.val by omega) with hbefore | heq
    · exact (ordered.increasing s t k j hbefore hs hj).trans hjy
    · rw [Fin.ext heq] at hs
      rwa [Option.some.inj (hs.symm.trans hj)]
  · obtain ⟨t, ht, hy⟩ := mem_keyAfter_iff.1 hy
    exact ordered.increasing s t k y (show s.val < t.val from ht ▸ hlt) hs hy

theorem sorted_interleave (ordered : f.Ordered bounds)
    (hsorted : ∀ link, (below link).Pairwise (· < ·)) :
    (f.interleave below).Pairwise (· < ·) := by
  rw [pairwise_interleave_iff]
  refine ⟨fun link => ⟨hsorted link, ?_⟩, ?_⟩
  · intro x hx y hy
    obtain ⟨s, hs, hy⟩ := mem_keyAfter_iff.1 hy
    exact gt_of_contains_under (hunder link x hx) hs hy
  · -- Between two parts stands the key after the first, which is no less than all of it.
    intro l m hlm x hx y hy
    have hlt : l.val < w := by omega
    obtain ⟨s, k, hs, hk, hle⟩ := packed.exists_ge_of_part hbelow hunder hlt hx
    exact hle.trans_lt (packed.lt_of_part hbelow hunder ordered hk (hs ▸ hlm) hy)

omit hunder

/-- All keys are in order within bounds if and only if those of the node are, and those below each
link within the bounds there. -/
theorem sorted_interleave_iff :
    ((f.interleave below).Pairwise (· < ·) ∧ ∀ k ∈ f.interleave below, bounds.contains k = true) ↔
      f.Ordered bounds ∧ ∀ link, (below link).Pairwise (· < ·) ∧
        ∀ k ∈ below link, (bounds.under f link).contains k = true := by
  constructor
  · rintro ⟨sorted, inside⟩
    obtain ⟨hparts, hacross⟩ := pairwise_interleave_iff.1 sorted
    refine ⟨⟨?_, fun s k hk => inside k (mem_interleave_iff.2 (.inr ⟨s, hk⟩))⟩,
      fun link => ⟨(hparts link).1, fun x hx => ?_⟩⟩
    · intro s t a b hst ha hb
      exact hacross s.castSucc t.castSucc hst a (mem_part rfl ha) b (mem_part rfl hb)
    · exact contains_under_of_sorted sorted (inside x (mem_interleave_iff.2 (.inl ⟨link, hx⟩))) hx
  · rintro ⟨ordered, hparts⟩
    have hunder (link : Fin (w + 1)) := (hparts link).2
    refine ⟨packed.sorted_interleave hbelow hunder ordered fun link => (hparts link).1, ?_⟩
    intro k hk
    rcases mem_interleave_iff.1 hk with ⟨link, hk⟩ | ⟨s, hk⟩
    · exact packed.contains_of_under ordered (hbelow link (List.ne_nil_of_mem hk)) (hunder link k hk)
    · exact ordered.inside s k hk

end Packed

end Face

namespace Tree

variable (tree : Tree w n V)

/-- The keys below a node in order, its own included. -/
def inorderFrom (i : Nat) : List (Key n) :=
  (tree.layout i).interleave fun link =>
    match _down : (tree.layout i).link link with
    | none => []
    | some child => inorderFrom child
  termination_by tree.nodes.size - i
  decreasing_by
    have hlt := tree.lt_of_layout_link _down
    omega

def inorder : List (Key n) := tree.inorderFrom root

def inorderUnder (i : Nat) (link : Fin (w + 1)) : List (Key n) :=
  ((tree.layout i).link link).elim [] tree.inorderFrom

theorem inorderFrom_eq (i : Nat) :
    tree.inorderFrom i = (tree.layout i).interleave (tree.inorderUnder i) := by
  rw [inorderFrom]
  congr 1
  funext link
  rw [inorderUnder]
  split
  · next hdown => rw [hdown, Option.elim_none]
  · next hdown => rw [hdown, Option.elim_some]

variable (i : Nat)

theorem link_ne_none_of_inorderUnder (link : Fin (w + 1)) (h : tree.inorderUnder i link ≠ []) :
    (tree.layout i).link link ≠ none := by
  intro hnone
  rw [inorderUnder, hnone] at h
  exact h rfl

theorem forall_inorderUnder_iff {p : Fin (w + 1) → List (Key n) → Prop} (hnil : ∀ link, p link []) :
    (∀ link, p link (tree.inorderUnder i link)) ↔
      ∀ link child, (tree.layout i).link link = some child → p link (tree.inorderFrom child) := by
  refine forall_congr' fun link => ?_
  rw [inorderUnder]
  cases (tree.layout i).link link with
  | none => simp [hnil]
  | some child => simp

end Tree

end FanoutIndex
