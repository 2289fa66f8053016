import FanoutIndex.Key.Basic

/-!
# The order of keys

Keys are ordered by their words, most significant first. `Key.compareWith` is the same comparison
against words that are fetched one at a time, and it fetches no word past the first that differs.
-/

namespace FanoutIndex

/-- Lexicographic comparison of rows of words. -/
def compareWords : List UInt64 → List UInt64 → Ordering
  | [], [] => .eq
  | [], _ :: _ => .lt
  | _ :: _, [] => .gt
  | a :: as, b :: bs =>
    match compare a b with
    | .eq => compareWords as bs
    | decided => decided

namespace Key

variable {n : Nat}

instance : Ord (Key n) := ⟨fun a b => compareWords a.words.toList b.words.toList⟩

instance : LT (Key n) := ltOfOrd

instance : LE (Key n) := leOfOrd

theorem compare_def (a b : Key n) : compare a b = compareWords a.words.toList b.words.toList := rfl

/-- Compares word by word at the given indexes, fetching the other word each time. -/
def compareAt {m : Type → Type} [Monad m] (key : Key n) (fetch : Fin n → m UInt64) :
    List (Fin n) → m Ordering
  | [] => pure .eq
  | i :: rest => do
    match compare (key.words.get i) (← fetch i) with
    | .eq => compareAt key fetch rest
    | decided => pure decided

/-- Compares with a key whose words are fetched on demand. -/
def compareWith {m : Type → Type} [Monad m] (key : Key n) (fetch : Fin n → m UInt64) :
    m Ordering :=
  key.compareAt fetch (List.finRange n)

/-- Compares with another key and tells which of its words were fetched, in order. -/
def compareFetching (a b : Key n) : Ordering × List Nat :=
  let fetch (i : Fin n) : StateM (List Nat) UInt64 := do
    modify fun fetched => fetched ++ [i.val]
    pure (b.words.get i)
  (a.compareWith fetch).run []

def sort (keys : List (Key n)) : List (Key n) :=
  keys.mergeSort fun a b => (compare a b).isLE

/-- Keys in increasing order, each once. -/
def sortDistinct (keys : List (Key n)) : List (Key n) := (sort keys).eraseReps

def greatest? (keys : List (Key n)) : Option (Key n) := (sort keys).getLast?

end Key

theorem compareWords_eq_iff {a b : List UInt64} : compareWords a b = .eq ↔ a = b := by
  induction a generalizing b with
  | nil => cases b <;> simp [compareWords]
  | cons x xs ih =>
    cases b with
    | nil => simp [compareWords]
    | cons y ys =>
      simp only [compareWords, List.cons.injEq]
      split
      · next h => rw [ih]; simp [Std.LawfulEqOrd.eq_of_compare h]
      · next h =>
        constructor
        · intro e; simp_all
        · rintro ⟨rfl, -⟩; simp at h

/-- Keys compare equal only if they are the same key. -/
theorem Key.compare_eq_iff {n : Nat} {a b : Key n} : compare a b = .eq ↔ a = b := by
  rw [Key.compare_def, compareWords_eq_iff]
  constructor
  · intro h
    cases a; cases b
    simpa [Vector.toList_inj] using h
  · rintro rfl; rfl

end FanoutIndex
