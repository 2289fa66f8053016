import FanoutIndex.Key.Basic

/-!
# Interference

What other clients do while an operation runs is given by a script: a list of events, each bound to
a call that the operation is going to make on the version of some node. With an empty script an
operation runs undisturbed.
-/

namespace FanoutIndex

/-- The calls on a version at which an event can happen. -/
inductive Site where
  | stable
  | hasChanged
  | tryLock
  | hasChangedLocked
  deriving DecidableEq, Repr

inductive Disturbance (V : Type) where
  /-- The call answers as if the node had changed or were locked. -/
  | fail
  /-- Another client completes a structural change of the node. -/
  | bump
  /-- Another client puts a key. -/
  | put (key : Bytes) (value : V)
  /-- Another client looks a key up. -/
  | get (key : Bytes)
  deriving DecidableEq, Repr

/-- An event happens at one call of its site, just before the call is answered. -/
structure Event (V : Type) where
  site : Site
  /-- Which call of the site, counted from now: 1 is the next one. -/
  call : Nat
  disturbance : Disturbance V
  deriving DecidableEq, Repr

namespace Event

variable {V : Type}

def isDue (site : Site) (event : Event V) : Bool := event.site == site && event.call == 1

def afterCall (site : Site) (event : Event V) : Event V :=
  if event.site == site then { event with call := event.call - 1 } else event

/-- Makes the call at the event answer as if it had failed. -/
def isFailure (event : Event V) : Bool :=
  match event.disturbance with
  | .fail => true
  | _ => false

/-- The events of a script that happen at the next call of a site, in the order of the script. -/
def dueAt (site : Site) (script : List (Event V)) : List (Event V) := script.filter (·.isDue site)

/-- The rest of a script once a call of the site has been made. -/
def afterCallOf (site : Site) (script : List (Event V)) : List (Event V) :=
  (script.filter fun event => !event.isDue site).map (·.afterCall site)

theorem length_afterCallOf (site : Site) (script : List (Event V)) :
    (dueAt site script).length + (afterCallOf site script).length = script.length := by
  simp only [dueAt, afterCallOf, List.length_map]
  induction script with
  | nil => rfl
  | cons event rest ih => cases h : event.isDue site <;> simp [h] <;> omega

end Event

end FanoutIndex
