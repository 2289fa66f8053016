import FanoutIndex.Load.Elapsed
import FanoutIndex.Load.Report

/-!
# The load driver

Puts a load on an index and prints times and shape:

    fanout-index [clients] [numbers for each client]

The environment variable for the key width is honoured. The exit code is 1 if the load fails.
-/

open FanoutIndex

private def failWith (cause : Load.Failure) : IO UInt32 := do
  IO.eprintln ("error: " ++ cause.message)
  return 1

private def timed {α : Type} (index : Load.Index) (action : Load.Action α) :
    IO (Except Load.Failure (α × Load.Index) × Elapsed) := do
  let start ← IO.monoNanosNow
  match Load.perform index action with
  | none => throw (IO.userError "the load never ends")
  | some result =>
    let stop ← IO.monoNanosNow
    return (result, ⟨stop - start⟩)

/-- Carries a plan out and reports on it. -/
private def carryOut (plan : LoadPlan) : IO UInt32 := do
  IO.print (LoadReport.opening plan)
  let (filled, putTime) ← timed (.empty plan.keyWidth) (Load.fill plan.numbers)
  match filled with
  | .error cause => failWith cause
  | .ok ((), index) =>
    let (counted, getTime) ← timed index (Load.countMissing plan.numbers)
    match counted with
    | .error cause => failWith cause
    | .ok (missing, index) =>
      let report := LoadReport.ofIndex plan index missing
      IO.print (report.closing (putTime.withRate plan.total) (getTime.withRate plan.total))
      match report.verdict with
      | .ok () => return 0
      | .error cause => failWith cause

def main (arguments : List String) : IO UInt32 := do
  let value ← IO.getEnv keyWidthVariable
  match LoadPlan.ofArguments arguments (value.map String.toUTF8) with
  | .error cause => failWith cause
  | .ok plan => carryOut plan
