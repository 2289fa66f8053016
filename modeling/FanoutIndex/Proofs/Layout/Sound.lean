import FanoutIndex.Proofs.Layout.Path

/-!
# Sound layouts

In a sound layout the keys of a node fill its slots from the left in increasing order, children
hang only where a key can lead, no node has two parents, and every key is stored on its own path.
Occupying the slot that a key leads to and hanging a new node under the link that it leads to keep
a layout sound.
-/

namespace FanoutIndex

variable {w n : Nat}

namespace Face

def occupy (f : Face w n) (slot : Fin w) (key : Key n) : Face w n :=
  ⟨Function.update f.key slot (some key), f.link⟩

def hang (f : Face w n) (link : Fin (w + 1)) (child : Nat) : Face w n :=
  ⟨f.key, Function.update f.link link (some child)⟩

variable {f : Face w n}

theorem key_occupy (slot s : Fin w) (key : Key n) :
    (f.occupy slot key).key s = if s = slot then some key else f.key s :=
  Function.update_apply f.key slot (some key) s

theorem link_hang (link l : Fin (w + 1)) (child : Nat) :
    (f.hang link child).link l = if l = link then some child else f.link l :=
  Function.update_apply f.link link (some child) l

theorem grows_occupy {slot : Fin w} {key : Key n} (h : f.key slot = none) :
    f.Grows (f.occupy slot key) := by
  refine ⟨?_, fun _ _ e => e⟩
  intro s k hs
  have hne : s ≠ slot := by
    rintro rfl
    cases h.symm.trans hs
  rw [key_occupy, if_neg hne]
  exact hs

theorem grows_hang {link : Fin (w + 1)} {child : Nat} (h : f.link link = none) :
    f.Grows (f.hang link child) := by
  refine ⟨fun _ _ e => e, ?_⟩
  intro l c hl
  have hne : l ≠ link := by
    rintro rfl
    cases h.symm.trans hl
  rw [link_hang, if_neg hne]
  exact hl

end Face

namespace Layout

def occupy (L : Layout w n) (i : Nat) (slot : Fin w) (key : Key n) : Layout w n :=
  Function.update L i ((L i).occupy slot key)

def hang (L : Layout w n) (i : Nat) (link : Fin (w + 1)) (child : Nat) : Layout w n :=
  Function.update L i ((L i).hang link child)

structure Sound (L : Layout w n) : Prop where
  /-- The occupied slots come first and their keys increase. -/
  ordered : ∀ i (s t : Fin w) k, s < t → (L i).key t = some k → ∃ j, (L i).key s = some j ∧ j < k
  /-- A child hangs left of an occupied slot, or right of them all in a full node. -/
  placed : ∀ i (l : Fin (w + 1)) c, (L i).link l = some c →
    ∀ s : Fin w, s.val ≤ l.val → ∃ k, (L i).key s = some k
  /-- Links lead to younger nodes. -/
  forward : ∀ i l c, (L i).link l = some c → i < c
  /-- A node hangs under one link only. -/
  oneParent : ∀ i j l m c, (L i).link l = some c → (L j).link m = some c → i = j ∧ l = m
  /-- A key is stored where a search for it leads. -/
  routed : ∀ i s k, L.Reachable i → (L i).key s = some k → ∃ d, L.Path k i d

variable {L : Layout w n} {key : Key n} {i d : Nat}

section Occupy

variable {slot : Fin w}

theorem occupy_of_ne {j : Nat} (h : j ≠ i) : L.occupy i slot key j = L j :=
  Function.update_of_ne h _ _

@[simp]
theorem occupy_self : L.occupy i slot key i = (L i).occupy slot key := Function.update_self _ _ _

@[simp]
theorem link_occupy (j : Nat) : (L.occupy i slot key j).link = (L j).link := by
  by_cases h : j = i
  · subst h
    rw [occupy_self]
    rfl
  · rw [occupy_of_ne h]

theorem key_occupy (j : Nat) (s : Fin w) :
    (L.occupy i slot key j).key s = if j = i ∧ s = slot then some key else (L j).key s := by
  by_cases h : j = i
  · subst h
    simp [Face.key_occupy]
  · simp [occupy_of_ne h, h]

theorem grows_occupy (h : (L i).key slot = none) : L.Grows (L.occupy i slot key) := by
  intro j
  by_cases hj : j = i
  · subst hj
    rw [occupy_self]
    exact Face.grows_occupy h
  · rw [occupy_of_ne hj]
    exact Face.Grows.refl _

@[simp]
theorem reachable_occupy {j : Nat} : (L.occupy i slot key).Reachable j ↔ L.Reachable j := by
  constructor
  · intro h
    induction h with
    | root => exact .root
    | step _ down ih => exact .step ih (by simpa using down)
  · intro h
    induction h with
    | root => exact .root
    | step _ down ih => exact .step ih (by simpa using down)

/-- Occupying the first vacant slot of a node, if the key is above the others and is routed there
or the node is not in use yet. -/
theorem Sound.occupy (sound : L.Sound) (vacant : (L i).Routes key (.vacant slot))
    (reached : L.Reachable i → ∃ d, L.Path key i d) : (L.occupy i slot key).Sound := by
  have grows : L.Grows (L.occupy i slot key) := grows_occupy vacant.2
  constructor
  case ordered =>
    intro j s t k hst ht
    rw [key_occupy] at ht
    split_ifs at ht with h
    · obtain ⟨rfl, rfl⟩ := h
      obtain ⟨k', hk', hlt⟩ := vacant.1 s hst
      cases ht
      exact ⟨k', (grows j).key s k' hk', hlt⟩
    · obtain ⟨k', hk', hlt⟩ := sound.ordered j s t k hst ht
      exact ⟨k', (grows j).key s k' hk', hlt⟩
  case placed =>
    intro j l c hl s hs
    rw [link_occupy] at hl
    obtain ⟨k, hk⟩ := sound.placed j l c hl s hs
    exact ⟨k, (grows j).key s k hk⟩
  case forward =>
    intro j l c hl
    rw [link_occupy] at hl
    exact sound.forward j l c hl
  case oneParent =>
    intro j j' l m c hl hm
    rw [link_occupy] at hl hm
    exact sound.oneParent j j' l m c hl hm
  case routed =>
    intro j s k hj hk
    rw [reachable_occupy] at hj
    rw [key_occupy] at hk
    split_ifs at hk with h
    · obtain ⟨rfl, rfl⟩ := h
      cases hk
      obtain ⟨d, hd⟩ := reached hj
      exact ⟨d, hd.grows grows⟩
    · obtain ⟨d, hd⟩ := sound.routed j s k hj hk
      exact ⟨d, hd.grows grows⟩

end Occupy

section Hang

variable {link : Fin (w + 1)} {child : Nat}

theorem hang_of_ne {j : Nat} (h : j ≠ i) : L.hang i link child j = L j :=
  Function.update_of_ne h _ _

@[simp]
theorem hang_self : L.hang i link child i = (L i).hang link child := Function.update_self _ _ _

@[simp]
theorem key_hang (j : Nat) : (L.hang i link child j).key = (L j).key := by
  by_cases h : j = i
  · subst h
    rw [hang_self]
    rfl
  · rw [hang_of_ne h]

theorem link_hang (j : Nat) (l : Fin (w + 1)) :
    (L.hang i link child j).link l = if j = i ∧ l = link then some child else (L j).link l := by
  by_cases h : j = i
  · subst h
    simp [Face.link_hang]
  · simp [hang_of_ne h, h]

theorem grows_hang (h : (L i).link link = none) : L.Grows (L.hang i link child) := by
  intro j
  by_cases hj : j = i
  · subst hj
    rw [hang_self]
    exact Face.grows_hang h
  · rw [hang_of_ne hj]
    exact Face.Grows.refl _

/-- A node that is not in use: nothing leads to it, nothing hangs below it, and it holds at most
one key. -/
structure Private (L : Layout w n) (child : Nat) (key : Key n) : Prop where
  unlinked : ∀ j l, (L j).link l ≠ some child
  bare : ∀ l, (L child).link l = none
  only : ∀ s k, (L child).key s = some k → k = key

theorem reachable_hang (p : L.Private child key) (hi : L.Reachable i)
    (empty : (L i).link link = none) (hne : child ≠ i) {j : Nat} :
    (L.hang i link child).Reachable j ↔ L.Reachable j ∨ j = child := by
  constructor
  · intro h
    induction h with
    | root => exact .inl .root
    | @step a c l _ down ih =>
      rw [link_hang] at down
      split_ifs at down with h
      · exact .inr (Option.some.inj down).symm
      · rcases ih with ih | rfl
        · exact .inl (.step ih down)
        · rw [p.bare] at down
          cases down
  · rintro (h | rfl)
    · exact h.grows (grows_hang empty)
    · have down : (L.hang i link j i).link link = some j := by rw [link_hang, if_pos ⟨rfl, rfl⟩]
      exact .step (hi.grows (grows_hang empty)) down

/-- Hanging a private node under the empty link that its key leads to. -/
theorem Sound.hang (sound : L.Sound) (path : L.Path key i d)
    (place : (L i).Routes key (.descend link none)) (p : L.Private child key) (younger : i < child) :
    (L.hang i link child).Sound := by
  have grows : L.Grows (L.hang i link child) := grows_hang place.2
  constructor
  case ordered =>
    intro j s t k hst ht
    rw [key_hang] at ht ⊢
    exact sound.ordered j s t k hst ht
  case placed =>
    intro j l c hl s hs
    rw [link_hang] at hl
    rw [key_hang]
    split_ifs at hl with h
    · obtain ⟨rfl, rfl⟩ := h
      rcases Nat.lt_or_eq_of_le hs with hlt | heq
      · obtain ⟨k, hk, _⟩ := place.1.1 s hlt
        exact ⟨k, hk⟩
      · have hw : l.val < w := by omega
        obtain ⟨k, hk, _⟩ := place.1.2 hw
        obtain rfl : s = ⟨l, hw⟩ := Fin.ext heq
        exact ⟨k, hk⟩
    · exact sound.placed j l c hl s hs
  case forward =>
    intro j l c hl
    rw [link_hang] at hl
    split_ifs at hl with h
    · obtain ⟨rfl, rfl⟩ := h
      cases hl
      exact younger
    · exact sound.forward j l c hl
  case oneParent =>
    intro j j' l m c hl hm
    rw [link_hang] at hl hm
    split_ifs at hl hm with h h' h'
    · exact ⟨h.1.trans h'.1.symm, h.2.trans h'.2.symm⟩
    · cases hl
      exact absurd hm (p.unlinked _ _)
    · cases hm
      exact absurd hl (p.unlinked _ _)
    · exact sound.oneParent j j' l m c hl hm
  case routed =>
    intro j s k hj hk
    rw [key_hang] at hk
    -- Only the keys of the child are new on a path, and they are routed to its link.
    rcases (reachable_hang p path.reachable place.2 (by omega)).1 hj with hj | rfl
    · obtain ⟨e, he⟩ := sound.routed j s k hj hk
      exact ⟨e, he.grows grows⟩
    · obtain rfl := p.only s k hk
      refine ⟨d + 1, .step (path.grows grows) ⟨place.1.grows (grows i), ?_⟩⟩
      rw [link_hang, if_pos ⟨rfl, rfl⟩]

end Hang

theorem Sound.dense (sound : L.Sound) : (L i).Dense := by
  intro s t hst ht
  obtain ⟨k, hk⟩ := Option.ne_none_iff_exists'.1 ht
  obtain ⟨j, hj, _⟩ := sound.ordered i s t k hst hk
  simp [hj]

theorem Sound.slot_unique (sound : L.Sound) {j : Nat} {s t : Fin w} (hi : L.Reachable i)
    (hj : L.Reachable j) (hs : (L i).key s = some key) (ht : (L j).key t = some key) :
    i = j ∧ s = t := by
  have found {a : Nat} {u : Fin w} (hu : (L a).key u = some key) :
      (L a).Routes key (Place.update u).route :=
    ⟨fun v hv => sound.ordered a v u key hv hu, hu⟩
  obtain ⟨d, hd⟩ := sound.routed i s key hi hs
  obtain ⟨e, he⟩ := sound.routed j t key hj ht
  obtain ⟨hij, _, hplace⟩ := hd.end_unique (found hs) he (found ht)
  exact ⟨hij, by simpa using hplace⟩

theorem Sound.absent (sound : L.Sound) {place : Place w} (path : L.Path key i d)
    (hend : (L i).Routes key place.route) (hplace : ∀ s, place ≠ .update s) {j : Nat} {t : Fin w}
    (hj : L.Reachable j) : (L j).key t ≠ some key := by
  intro ht
  obtain ⟨e, he⟩ := sound.routed j t key hj ht
  have found : (L j).Routes key (Place.update t).route :=
    ⟨fun v hv => sound.ordered j v t key hv ht, ht⟩
  obtain ⟨_, _, h⟩ := path.end_unique hend he found
  exact hplace t h

end Layout

end FanoutIndex
