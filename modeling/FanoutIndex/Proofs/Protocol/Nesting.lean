import FanoutIndex.Proofs.Protocol.Attempts

/-!
# Nested calls

What other clients call in their puts and look-ups stands in a trace between a mark where it begins
and one where it ends, and such brackets nest. The calls of the operation itself are those outside
of all brackets.
-/

namespace FanoutIndex

variable {V : Type}

/-- How many operations of other clients are open after a call. -/
def Call.levelAfter (level : Nat) : Call V → Nat
  | .beginPut _ _ | .beginGet _ => level + 1
  | .endPut _ _ | .endGet _ _ => level - 1
  | _ => level

/-- The own calls outside of all brackets, where some are open already. -/
def outermostFrom (level : Nat) : List (Call V) → List (Call V)
  | [] => []
  | call :: rest =>
    if level = 0 ∧ call.isOwn then call :: outermostFrom (call.levelAfter level) rest
    else outermostFrom (call.levelAfter level) rest

/-- The calls that an operation made itself. -/
def outermost (calls : List (Call V)) : List (Call V) := outermostFrom 0 calls

/-- Calls that close all the brackets that they open, and what stands outside of these. -/
def Whole (calls own : List (Call V)) : Prop :=
  ∀ level later, outermostFrom level (calls ++ later) =
    (if level = 0 then own else []) ++ outermostFrom level later

namespace Whole

variable {calls others own more : List (Call V)}

theorem nil : Whole ([] : List (Call V)) [] := by
  intro level later
  rw [ite_self, List.nil_append]
  rfl

theorem append (first : Whole calls own) (second : Whole others more) :
    Whole (calls ++ others) (own ++ more) := by
  intro level later
  rw [List.append_assoc, first, second, ← List.append_assoc]
  split
  · rfl
  · rfl

theorem single {call : Call V} (h : call.isOwn = true) : Whole [call] [call] := by
  intro level later
  have hlevel : call.levelAfter level = level := by
    cases call <;> first | rfl | cases h
  rw [List.singleton_append, outermostFrom, hlevel, h]
  by_cases hzero : level = 0
  · simp [hzero]
  · simp [hzero]

theorem bump (node : Nat) (answer : Bool) : Whole ([.bump node answer] : List (Call V)) [] := by
  intro level later
  simp [outermostFrom, Call.isOwn, Call.levelAfter]

theorem bracket {first last : Call V} (inner : Whole calls own) (hfirst : first.isOwn = false)
    (hlast : last.isOwn = false) (opens : ∀ level, first.levelAfter level = level + 1)
    (closes : ∀ level, last.levelAfter level = level - 1) :
    Whole (first :: (calls ++ [last])) [] := by
  intro level later
  rw [List.cons_append, outermostFrom, opens, List.append_assoc, inner, List.singleton_append,
    outermostFrom, closes]
  simp [hfirst, hlast]

theorem put (inner : Whole calls own) (key : Bytes) (value : V) :
    Whole (.beginPut key value :: (calls ++ [.endPut key value])) [] :=
  inner.bracket rfl rfl (fun _ => rfl) fun _ => rfl

theorem get (inner : Whole calls own) (key : Bytes) (value : Option V) :
    Whole (.beginGet key :: (calls ++ [.endGet key value])) [] :=
  inner.bracket rfl rfl (fun _ => rfl) fun _ => rfl

theorem outermost_eq (h : Whole calls own) : outermost calls = own := by
  have hall := h 0 []
  rwa [List.append_nil, if_pos rfl, outermostFrom, List.append_nil] at hall

end Whole

end FanoutIndex
