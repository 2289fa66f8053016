import FanoutIndex.Access.Index
import FanoutIndex.Load.Plan
import FanoutIndex.Tree.Dump
import FanoutIndex.Tree.Stats

namespace FanoutIndex

namespace Load

abbrev Index := Tree defaultWidth defaultWords UInt64

abbrev Action := Operation defaultWidth defaultWords UInt64

def fill (numbers : List UInt64) : Action Unit :=
  numbers.forM fun m => Operation.put (keyFor m) m .own

/-- How many numbers are not found under their keys. -/
def countMissing (numbers : List UInt64) : Action Nat := do
  let found ← numbers.mapM fun m => return (← Operation.get? (keyFor m) .own) == some m
  return found.countP (!·)

/-- The result of an operation that nothing interferes with, if it ends. -/
def perform {α : Type} (index : Index) (action : Action α) : Option (Except Failure (α × Index)) :=
  (action.exec (.quiet index)).map fun (result, run) =>
    (result.mapError .fault).map fun value => (value, run.tree)

/-- Whether a load went well. -/
def verdict (index : Index) (missing total : Nat) : Except Failure Unit := do
  match ← index.check.mapError .fault with
  | some cause => throw (.violation cause)
  | none => if 0 < missing ∨ index.len ≠ total then throw (.incomplete missing index.len total)

end Load

structure LoadReport where
  plan : LoadPlan
  len : Nat
  stats : Stats
  /-- The whole index, if the load is small. -/
  dump : String
  verdict : Except Load.Failure Unit

namespace LoadReport

def ofIndex (plan : LoadPlan) (index : Load.Index) (missing : Nat) : LoadReport where
  plan := plan
  len := index.len
  stats := index.stats
  dump := if plan.total ≤ Load.dumpLimit then index.print else ""
  verdict := Load.verdict index missing plan.total

/-- The line that opens a load. -/
def opening (plan : LoadPlan) : String :=
  indexName ++ ": " ++ toString plan.clients ++ " threads x " ++ toString plan.share ++ " keys\n"

def closing (report : LoadReport) (putTime getTime : String) : String :=
  "put: " ++ putTime ++ "\nget: " ++ getTime ++ "\nlen=" ++ toString report.len ++ " nodes="
    ++ toString report.stats.nodes ++ " max_depth=" ++ toString report.stats.maxDepth ++ "\n"
    ++ report.dump

/-- Carries a load out, if it ends. -/
def ofPlan (plan : LoadPlan) : Option (Except Load.Failure LoadReport) :=
  match Load.perform (.empty plan.keyWidth) (Load.fill plan.numbers) with
  | none => none
  | some (.error cause) => some (.error cause)
  | some (.ok ((), index)) =>
    match Load.perform index (Load.countMissing plan.numbers) with
    | none => none
    | some (.error cause) => some (.error cause)
    | some (.ok (missing, index)) => some (.ok (ofIndex plan index missing))

end LoadReport

end FanoutIndex
