import FanoutIndex.Proofs.Version.Guarded
import FanoutIndex.Version.Guards

/-!
# Accounts of guards

A ledger of guards says who holds what without looking at any word: which guards are held, which of
them were marked, and how many marked ones are gone. Where versions are worked on through guards
only, each word is the one that the ledger tells, and so are the answers to all tokens.
-/

namespace FanoutIndex

/-- A guard that is held: its number, the version that it locks, and whether it was marked. -/
structure HeldGuard where
  number : Nat
  version : Nat
  isMarked : Bool
  deriving DecidableEq, Repr

/-- The guards that are held, and for each version how many marked ones are gone. -/
structure GuardLedger where
  held : List HeldGuard
  counted : Nat → Nat

namespace GuardAction

def acquired? : GuardAction → Option Nat
  | acquire g _ => some g
  | _ => none

/-- An action of a program that works on its versions through guards: it makes none of the raw calls
that change a word. -/
def IsGuarded (size : Nat) : GuardAction → Prop
  | acquire _ v | criticalSection v _ _ => v < size
  | awaitToken _ | tryLock _ | unlock _ | markInsert _ => False
  | _ => True

/-- The version that an action works on; that of a guard is the one it locks. -/
def subject? (s : GuardedVersions) : GuardAction → Option Nat
  | takeToken v | awaitToken v | hasChanged v _ | hasChangedLocked v _ | tryLock v | unlock v
  | markInsert v | acquire _ v | criticalSection v _ _ | describe v | describeBlock v => some v
  | guardMark g | guardHasChanged g _ _ | guardGuards g _ | guardDescribe g | guardDrop g =>
    s.guarded? g

end GuardAction

namespace GuardLedger

def empty : GuardLedger := ⟨[], fun _ => 0⟩

variable (l : GuardLedger)

/-- The guard that holds the lock of a version, by whether it was marked. -/
def state? (v : Nat) : Option Bool := (l.held.find? (·.version == v)).map (·.isMarked)

def guard? (g : Nat) : Option HeldGuard := l.held.find? (·.number == g)

def acquire (g v : Nat) : GuardLedger := { l with held := l.held ++ [⟨g, v, false⟩] }

def mark (g : Nat) : GuardLedger :=
  { l with held := l.held.map fun h => if h.number = g then { h with isMarked := true } else h }

def count (v : Nat) (isMarked : Bool) : GuardLedger :=
  { l with counted := Function.update l.counted v (l.counted v + isMarked.toNat) }

def drop (h : HeldGuard) : GuardLedger :=
  { l with held := l.held.filter (·.number != h.number) }.count h.version h.isMarked

def step : GuardAction → GuardLedger
  | .acquire g v => if l.state? v = none then l.acquire g v else l
  | .guardMark g => l.mark g
  | .guardDrop g =>
    match l.guard? g with
    | none => l
    | some h => l.drop h
  | .criticalSection v mark _ => if l.state? v = none then l.count v mark else l
  | _ => l

def run (actions : List GuardAction) : GuardLedger := actions.foldl step l

variable {l} {v g : Nat} {h : HeldGuard} {isMarked : Bool}

theorem find?_key_eq_some_iff (key : HeldGuard → Nat) {held : List HeldGuard}
    (unique : (held.map key).Nodup) {k : Nat} :
    held.find? (fun h => key h == k) = some h ↔ h ∈ held ∧ key h = k := by
  constructor
  · intro hfind
    exact ⟨List.mem_of_find?_eq_some hfind, by simpa using List.find?_some hfind⟩
  · rintro ⟨hmem, rfl⟩
    cases hfind : held.find? (fun x => key x == key h) with
    | none =>
      have hnone := List.find?_eq_none.1 hfind h hmem
      simp at hnone
    | some h' =>
      have hmem' := List.mem_of_find?_eq_some hfind
      have hkey : key h' = key h := by simpa using List.find?_some hfind
      rw [List.inj_on_of_nodup_map unique hmem' hmem hkey]

/-- No two guards have one number or one version. -/
structure Apart (l : GuardLedger) : Prop where
  numbers : (l.held.map (·.number)).Nodup
  versions : (l.held.map (·.version)).Nodup

theorem Apart.guard?_eq_some_iff (apart : l.Apart) :
    l.guard? g = some h ↔ h ∈ l.held ∧ h.number = g :=
  find?_key_eq_some_iff (·.number) apart.numbers

theorem Apart.state?_eq_some_iff (apart : l.Apart) :
    l.state? v = some isMarked ↔ ∃ h ∈ l.held, h.version = v ∧ h.isMarked = isMarked := by
  simp only [state?, Option.map_eq_some_iff, find?_key_eq_some_iff (·.version) apart.versions,
    and_assoc]

theorem state?_eq_none_iff : l.state? v = none ↔ ∀ h ∈ l.held, h.version ≠ v := by
  simp [state?, List.find?_eq_none]

theorem Apart.state?_of_mem (apart : l.Apart) (hmem : h ∈ l.held) :
    l.state? h.version = some h.isMarked :=
  apart.state?_eq_some_iff.2 ⟨h, hmem, rfl, rfl⟩

theorem Apart.eq_of_version (apart : l.Apart) {h' : HeldGuard} (hmem : h ∈ l.held)
    (hmem' : h' ∈ l.held) (heq : h.version = h'.version) : h = h' :=
  List.inj_on_of_nodup_map apart.versions hmem hmem' heq

section Acquire

theorem Apart.acquire (apart : l.Apart) (free : l.state? v = none)
    (fresh : ∀ h ∈ l.held, h.number ≠ g) : (l.acquire g v).Apart where
  numbers := by
    have hnew : ∀ a ∈ l.held.map (·.number), a ≠ g := by simpa using fresh
    simpa [GuardLedger.acquire, List.nodup_append, apart.numbers] using hnew
  versions := by
    have hnew : ∀ a ∈ l.held.map (·.version), a ≠ v := by simpa using state?_eq_none_iff.1 free
    simpa [GuardLedger.acquire, List.nodup_append, apart.versions] using hnew

theorem Apart.state?_acquire (apart : l.Apart) (free : l.state? v = none)
    (fresh : ∀ h ∈ l.held, h.number ≠ g) (u : Nat) :
    (l.acquire g v).state? u = if u = v then some false else l.state? u := by
  apply Option.ext
  intro m
  rw [(apart.acquire free fresh).state?_eq_some_iff]
  have hold := state?_eq_none_iff.1 free
  split_ifs with hu
  · subst hu
    simp only [GuardLedger.acquire, List.mem_append, List.mem_singleton, Option.some.injEq]
    constructor
    · rintro ⟨h, hmem | rfl, hversion, rfl⟩
      · exact absurd hversion (hold h hmem)
      · rfl
    · rintro rfl
      exact ⟨_, .inr rfl, rfl, rfl⟩
  · rw [apart.state?_eq_some_iff]
    simp only [GuardLedger.acquire, List.mem_append, List.mem_singleton]
    constructor
    · rintro ⟨h, hmem | rfl, hversion, hmark⟩
      · exact ⟨h, hmem, hversion, hmark⟩
      · exact absurd hversion.symm hu
    · rintro ⟨h, hmem, hversion, hmark⟩
      exact ⟨h, .inl hmem, hversion, hmark⟩

end Acquire

section Mark

theorem map_held_mark {α : Type} (f : HeldGuard → α) (same : ∀ h, f { h with isMarked := true } = f h) :
    (l.mark g).held.map f = l.held.map f := by
  rw [mark, List.map_map]
  apply List.map_congr_left
  intro h _
  rw [Function.comp]
  split_ifs
  · exact same h
  · rfl

theorem Apart.mark (apart : l.Apart) : (l.mark g).Apart where
  numbers := by
    rw [map_held_mark _ fun _ => rfl]
    exact apart.numbers
  versions := by
    rw [map_held_mark _ fun _ => rfl]
    exact apart.versions

theorem mark_of_not_held (hnone : ∀ h ∈ l.held, h.number ≠ g) : l.mark g = l := by
  have hheld : (l.mark g).held = l.held := by
    refine (List.map_congr_left fun h hmem => ?_).trans (List.map_id _)
    exact if_neg (hnone h hmem)
  cases l
  exact congrArg (GuardLedger.mk · _) hheld

theorem Apart.state?_mark (apart : l.Apart) (hmem : h ∈ l.held) (u : Nat) :
    (l.mark h.number).state? u = if u = h.version then some true else l.state? u := by
  have hfind : (l.mark h.number).held.find? (·.version == u) = (l.held.find? (·.version == u)).map
      fun x => if x.number = h.number then { x with isMarked := true } else x := by
    rw [GuardLedger.mark, List.find?_map]
    congr 2
    funext x
    rw [Function.comp]
    split_ifs <;> rfl
  rw [state?, hfind, state?]
  split_ifs with hu
  · subst hu
    rw [(find?_key_eq_some_iff (·.version) apart.versions).2 ⟨hmem, rfl⟩]
    simp
  · cases hx : l.held.find? (·.version == u) with
    | none => rfl
    | some x =>
      obtain ⟨hmem', rfl⟩ := (find?_key_eq_some_iff (·.version) apart.versions).1 hx
      have hne : x.number ≠ h.number := by
        intro e
        exact hu (congrArg HeldGuard.version (List.inj_on_of_nodup_map apart.numbers hmem' hmem e))
      simp [hne]

end Mark

section Drop

theorem Apart.drop (apart : l.Apart) (h : HeldGuard) : (l.drop h).Apart where
  numbers := apart.numbers.sublist (List.filter_sublist.map _)
  versions := apart.versions.sublist (List.filter_sublist.map _)

theorem Apart.state?_drop (apart : l.Apart) (hmem : h ∈ l.held) (u : Nat) :
    (l.drop h).state? u = if u = h.version then none else l.state? u := by
  have hne {x : HeldGuard} (hx : x ∈ l.held) : x.number ≠ h.number ↔ x.version ≠ h.version := by
    constructor
    · rintro hne hversion
      exact hne (congrArg HeldGuard.number (apart.eq_of_version hx hmem hversion))
    · rintro hne hnumber
      exact hne (congrArg HeldGuard.version
        (List.inj_on_of_nodup_map apart.numbers hx hmem hnumber))
  have hheld {x : HeldGuard} : x ∈ (l.drop h).held ↔ x ∈ l.held ∧ x.version ≠ h.version := by
    rw [GuardLedger.drop, count, List.mem_filter]
    constructor
    · rintro ⟨hx, hnumber⟩
      exact ⟨hx, (hne hx).1 (by simpa using hnumber)⟩
    · rintro ⟨hx, hversion⟩
      exact ⟨hx, by simpa using (hne hx).2 hversion⟩
  split_ifs with hu
  · subst hu
    exact state?_eq_none_iff.2 fun x hx => (hheld.1 hx).2
  · apply Option.ext
    intro m
    rw [(apart.drop h).state?_eq_some_iff, apart.state?_eq_some_iff]
    constructor
    · rintro ⟨x, hx, hversion, hmark⟩
      exact ⟨x, (hheld.1 hx).1, hversion, hmark⟩
    · rintro ⟨x, hx, rfl, hmark⟩
      exact ⟨x, hheld.2 ⟨hx, hu⟩, rfl, hmark⟩

end Drop

/-- The guards that are held after an action were held before it, but for the one that it takes. -/
theorem number_of_mem_step {action : GuardAction} (hmem : h ∈ (l.step action).held) :
    (∃ h' ∈ l.held, h'.number = h.number) ∨ action.acquired? = some h.number := by
  cases action with
  | acquire g v =>
    rw [step] at hmem
    split_ifs at hmem
    · rcases List.mem_append.1 hmem with hold | hnew
      · exact .inl ⟨h, hold, rfl⟩
      · obtain rfl := List.mem_singleton.1 hnew
        exact .inr rfl
    · exact .inl ⟨h, hmem, rfl⟩
  | guardMark g =>
    obtain ⟨x, hx, rfl⟩ := List.mem_map.1 hmem
    refine .inl ⟨x, hx, ?_⟩
    split_ifs <;> rfl
  | guardDrop g =>
    rw [step] at hmem
    split at hmem
    · exact .inl ⟨h, hmem, rfl⟩
    · exact .inl ⟨h, List.mem_of_mem_filter hmem, rfl⟩
  | criticalSection v mark abandon =>
    rw [step] at hmem
    split_ifs at hmem <;> exact .inl ⟨h, hmem, rfl⟩
  | _ => exact .inl ⟨h, hmem, rfl⟩

theorem counted_count (v u : Nat) (isMarked : Bool) : (l.count v isMarked).counted u =
    l.counted u + if u = v then isMarked.toNat else 0 := by
  simp only [count, Function.update_apply]
  split_ifs with hu
  · rw [hu]
  · rfl

theorem counted_le_step (action : GuardAction) (v : Nat) :
    l.counted v ≤ (l.step action).counted v := by
  have hcount (u : Nat) (m : Bool) : l.counted v ≤ (l.count u m).counted v := by
    rw [counted_count]
    exact Nat.le_add_right _ _
  cases action with
  | acquire g u =>
    rw [step]
    split_ifs <;> exact Nat.le_refl _
  | guardDrop g =>
    rw [step]
    split
    · exact Nat.le_refl _
    · next h _ => exact hcount h.version h.isMarked
  | criticalSection u mark abandon =>
    rw [step]
    split_ifs
    · exact hcount u mark
    · exact Nat.le_refl _
  | _ => exact Nat.le_refl _

theorem counted_le_run (actions : List GuardAction) (v : Nat) :
    l.counted v ≤ (l.run actions).counted v := by
  induction actions generalizing l with
  | nil => exact Nat.le_refl _
  | cons action rest ih => exact (counted_le_step action v).trans ih

end GuardLedger

end FanoutIndex
