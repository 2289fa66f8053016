import Mathlib
import FanoutIndex.Access.Search
import FanoutIndex.Proofs.Key.Linear

/-!
# Faces of nodes

The face of a node is what decides where keys lead in it: the keys of its occupied slots and its
children. Routes are characterized on faces, and a face that grows keeps every route that ends in a
key or in a child.
-/

namespace FanoutIndex

variable {w n : Nat} {V : Type}

/-- The keys of the occupied slots of a node and its children. -/
@[ext]
structure Face (w n : Nat) where
  key : Fin w → Option (Key n)
  link : Fin (w + 1) → Option Nat

def Node.face (node : Node w n V) : Face w n := ⟨node.key?, fun link => node.links.get link⟩

def Place.route : Place w → Route w
  | update slot => .found slot
  | fill slot => .vacant slot
  | attach link => .descend link none

namespace Face

/-- The occupied slots come first. -/
def Dense (f : Face w n) : Prop := ∀ s t : Fin w, s < t → f.key t ≠ none → f.key s ≠ none

/-- Every slot before a position holds a key below the given one. -/
def Precedes (f : Face w n) (key : Key n) (position : Nat) : Prop :=
  ∀ s : Fin w, s.val < position → ∃ k, f.key s = some k ∧ k < key

/-- The key belongs under a link: it lies between the keys on both sides. -/
def LeadsTo (f : Face w n) (key : Key n) (link : Fin (w + 1)) : Prop :=
  f.Precedes key link ∧ ∀ h : link.val < w, ∃ k, f.key ⟨link, h⟩ = some k ∧ key < k

/-- Where a key leads, by the contents of the slots alone. -/
def Routes (f : Face w n) (key : Key n) : Route w → Prop
  | .found slot => f.Precedes key slot ∧ f.key slot = some key
  | .vacant slot => f.Precedes key slot ∧ f.key slot = none
  | .descend link child => f.LeadsTo key link ∧ f.link link = child

/-- Slots and links are set and not changed afterwards. -/
structure Grows (f g : Face w n) : Prop where
  key : ∀ s k, f.key s = some k → g.key s = some k
  link : ∀ l c, f.link l = some c → g.link l = some c

variable {f g h : Face w n} {key : Key n}

theorem Grows.refl (f : Face w n) : f.Grows f := ⟨fun _ _ e => e, fun _ _ e => e⟩

theorem Grows.trans (fg : f.Grows g) (gh : g.Grows h) : f.Grows h :=
  ⟨fun s k e => gh.key s k (fg.key s k e), fun l c e => gh.link l c (fg.link l c e)⟩

theorem Precedes.grows {p : Nat} (hp : f.Precedes key p) (fg : f.Grows g) : g.Precedes key p := by
  intro s hs
  obtain ⟨k, hk, hlt⟩ := hp s hs
  exact ⟨k, fg.key s k hk, hlt⟩

theorem LeadsTo.grows {l : Fin (w + 1)} (hl : f.LeadsTo key l) (fg : f.Grows g) :
    g.LeadsTo key l := by
  refine ⟨hl.1.grows fg, ?_⟩
  intro h
  obtain ⟨k, hk, hlt⟩ := hl.2 h
  exact ⟨k, fg.key _ k hk, hlt⟩

theorem Routes.found_grows {s : Fin w} (hr : f.Routes key (.found s)) (fg : f.Grows g) :
    g.Routes key (.found s) :=
  ⟨hr.1.grows fg, fg.key s key hr.2⟩

theorem Routes.down_grows {l : Fin (w + 1)} {c : Nat} (hr : f.Routes key (.descend l (some c)))
    (fg : f.Grows g) : g.Routes key (.descend l (some c)) :=
  ⟨hr.1.grows fg, fg.link l c hr.2⟩

/-- A slot that holds no key below the given one ends the scan. -/
theorem Precedes.le_of_not {p : Nat} {s : Fin w} (hp : f.Precedes key p)
    (hs : ∀ k, f.key s = some k → ¬k < key) : p ≤ s.val := by
  by_contra hlt
  obtain ⟨k, hk, hlow⟩ := hp s (Nat.lt_of_not_le hlt)
  exact hs k hk hlow

def stop : Route w → Nat
  | .found slot => slot
  | .vacant slot => slot
  | .descend link _ => link

theorem Routes.precedes {r : Route w} (hr : f.Routes key r) : f.Precedes key (stop r) := by
  cases r with
  | found s => exact hr.1
  | vacant s => exact hr.1
  | descend l c => exact hr.1.1

theorem Routes.stops {r : Route w} (hr : f.Routes key r) (s : Fin w) (hs : s.val = stop r) :
    ∀ k, f.key s = some k → ¬k < key := by
  intro k hk
  cases r with
  | found t =>
    obtain rfl : s = t := Fin.ext hs
    rw [hr.2] at hk
    cases hk
    exact lt_irrefl key
  | vacant t =>
    obtain rfl : s = t := Fin.ext hs
    rw [hr.2] at hk
    cases hk
  | descend l c =>
    have hl : l.val < w := by simp only [stop] at hs; omega
    obtain ⟨j, hj, hlt⟩ := hr.1.2 hl
    obtain rfl : s = ⟨l, hl⟩ := Fin.ext hs
    rw [hj] at hk
    cases hk
    exact lt_asymm hlt

theorem stop_le {r : Route w} : stop r ≤ w := by
  cases r with
  | found s => exact s.isLt.le
  | vacant s => exact s.isLt.le
  | descend l c => exact Nat.le_of_lt_succ l.isLt

theorem stop_le_of_routes {r q : Route w} (hr : f.Routes key r) (hq : f.Routes key q) :
    stop r ≤ stop q := by
  by_contra hlt
  have hw : stop q < w := (Nat.lt_of_not_le hlt).trans_le stop_le
  have := hr.precedes.le_of_not (hq.stops ⟨stop q, hw⟩ rfl)
  exact hlt this

/-- Where a key leads is determined by the face. -/
theorem Routes.unique {r q : Route w} (hr : f.Routes key r) (hq : f.Routes key q) : r = q := by
  have hstop := Nat.le_antisymm (stop_le_of_routes hr hq) (stop_le_of_routes hq hr)
  cases r with
  | found s =>
    cases q with
    | found t => rw [Fin.ext hstop]
    | vacant t =>
      obtain rfl : s = t := Fin.ext hstop
      cases hr.2.symm.trans hq.2
    | descend l c =>
      have hl : l.val < w := by simp only [stop] at hstop; omega
      obtain ⟨k, hk, hlt⟩ := hq.1.2 hl
      obtain rfl : s = ⟨l, hl⟩ := Fin.ext hstop
      cases hk.symm.trans hr.2
      exact absurd hlt (lt_irrefl key)
  | vacant s =>
    cases q with
    | found t =>
      obtain rfl : s = t := Fin.ext hstop
      cases hr.2.symm.trans hq.2
    | vacant t => rw [Fin.ext hstop]
    | descend l c =>
      have hl : l.val < w := by simp only [stop] at hstop; omega
      obtain ⟨k, hk, hlt⟩ := hq.1.2 hl
      obtain rfl : s = ⟨l, hl⟩ := Fin.ext hstop
      cases hk.symm.trans hr.2
  | descend l c =>
    cases q with
    | found t =>
      have hl : l.val < w := by simp only [stop] at hstop; omega
      obtain ⟨k, hk, hlt⟩ := hr.1.2 hl
      obtain rfl : t = ⟨l, hl⟩ := Fin.ext hstop.symm
      cases hk.symm.trans hq.2
      exact absurd hlt (lt_irrefl key)
    | vacant t =>
      have hl : l.val < w := by simp only [stop] at hstop; omega
      obtain ⟨k, hk, hlt⟩ := hr.1.2 hl
      obtain rfl : t = ⟨l, hl⟩ := Fin.ext hstop.symm
      cases hk.symm.trans hq.2
    | descend m d =>
      obtain rfl : l = m := Fin.ext hstop
      rw [← hr.2, ← hq.2]

end Face

namespace Node

variable (node : Node w n V) (key : Key n)

theorem compareSlot_eq (slot : Fin w) :
    node.compareSlot key slot = compare key (node.keys.get slot) :=
  Key.compareWith_eq_compare key (node.keys.get slot)

theorem face_key_of_isOccupied {slot : Fin w} (h : node.isOccupied slot = true) :
    node.face.key slot = some (node.keys.get slot) := by
  simp [face, key?, h]

theorem face_key_of_not_isOccupied {slot : Fin w} (h : node.isOccupied slot = false) :
    node.face.key slot = none := by
  simp [face, key?, h]

theorem routes_routeAlong (position : Nat) (hp : node.face.Precedes key position) (hle : position ≤ w) :
    node.face.Routes key (node.routeAlong key ((List.finRange w).drop position)) := by
  by_cases hlt : position < w
  · have hn : position < (List.finRange w).length := by simpa using hlt
    rw [List.drop_eq_getElem_cons hn]
    simp only [List.getElem_finRange, Fin.cast_mk, routeAlong]
    cases hocc : node.isOccupied ⟨position, hlt⟩ with
    | false => exact ⟨hp, node.face_key_of_not_isOccupied hocc⟩
    | true =>
      have hkey := node.face_key_of_isOccupied hocc
      rw [if_pos rfl, compareSlot_eq]
      cases hcmp : compare key (node.keys.get (⟨position, hlt⟩ : Fin w)) with
      | eq => exact ⟨hp, by rw [hkey, Key.compare_eq_iff.1 hcmp]⟩
      | lt => exact ⟨⟨hp, fun _ => ⟨_, hkey, hcmp⟩⟩, rfl⟩
      | gt =>
        apply routes_routeAlong (position + 1) _ hlt
        intro s hs
        rcases Nat.lt_succ_iff_lt_or_eq.1 hs with hs | hs
        · exact hp s hs
        · obtain rfl : s = ⟨position, hlt⟩ := Fin.ext hs
          exact ⟨_, hkey, Key.gt_iff_compare.2 hcmp⟩
  · obtain rfl : position = w := by omega
    rw [List.drop_eq_nil_of_le (by simp)]
    exact ⟨⟨hp, fun h => absurd h (lt_irrefl _)⟩, rfl⟩
termination_by w - position

theorem routes_route : node.face.Routes key (node.route key) := by
  have h := node.routes_routeAlong key 0 (fun s hs => absurd hs (Nat.not_lt_zero _)) (Nat.zero_le w)
  rwa [List.drop_zero] at h

theorem route_eq_iff {r : Route w} : node.route key = r ↔ node.face.Routes key r := by
  constructor
  · rintro rfl
    exact node.routes_route key
  · exact (node.routes_route key).unique

theorem route_congr {a b : Node w n V} (h : a.face = b.face) : a.route key = b.route key := by
  rw [route_eq_iff, h]
  exact b.routes_route key

end Node

theorem turn_eq_here_iff {r : Route w} {place : Place w} :
    r.turn = .here place ↔ r = place.route := by
  rcases r with s | s | ⟨l, _ | c⟩ <;> rcases place with t | t | m <;>
    simp [Route.turn, Place.route]

theorem turn_eq_down_iff {r : Route w} {child : Nat} :
    r.turn = .down child ↔ ∃ link, r = .descend link (some child) := by
  rcases r with s | s | ⟨l, _ | c⟩ <;> simp [Route.turn]

end FanoutIndex
