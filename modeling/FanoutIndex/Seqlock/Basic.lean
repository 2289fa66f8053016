import Mathlib.Logic.Function.Basic
import FanoutIndex.Version.Basic

/-!
# Cells under a version

One version and some cells that it guards. A writer takes the lock, marks a change, stores cells and
gives the lock back; a reader takes a token, loads cells and asks whether the version has changed.
What is indivisible is a single access: a load, store or exchange of the version word, or a load or
store of a cell.
-/

namespace FanoutIndex

namespace Seqlock

/-- What a writer did under its lock so far. -/
inductive Done where
  | nothing
  /-- It stored a cell, and marked no change yet. -/
  | stored
  | marked
  deriving DecidableEq, Repr

def Done.store : Done → Done
  | nothing => stored
  | stored => stored
  | marked => marked

/-- The rest of what a writer does under its lock. It may load cells and go on by what it finds. A
writer that stores a cell marks a change, before or afterwards, but before it unlocks. -/
inductive Body (ι α : Type) : Done → Type where
  | finish {done : Done} (whole : done ≠ .stored) : Body ι α done
  | mark {done : Done} (rest : Body ι α .marked) : Body ι α done
  | store {done : Done} (cell : ι) (value : α) (rest : Body ι α done.store) : Body ι α done
  | load {done : Done} (cell : ι) (rest : α → Body ι α done) : Body ι α done

/-- The rest of what a reader does with its token before it asks for the last time. -/
inductive Probe (ι α : Type) where
  | finish
  | load (cell : ι) (rest : α → Probe ι α)
  /-- Ask whether the version has changed. -/
  | ask (rest : Bool → Probe ι α)

/-- What a client does as a whole. A writer that does not insist gives up when the lock is taken. -/
inductive Task (ι α : Type) where
  | read (probe : Probe ι α)
  | write (insists : Bool) (body : Body ι α .nothing)

inductive Reply (ι α : Type) where
  /-- The token, the cells as they were loaded, and the answer to the last question. -/
  | read (token : Token) (loads : List (ι × α)) (changed : Bool)
  | written (isMarked : Bool)
  | refused
  deriving DecidableEq, Repr

/-- The access that a client makes next. -/
inductive Stage (ι α : Type) where
  /-- Load the version, again and again until it is at rest. -/
  | takeToken (probe : Probe ι α)
  /-- Load a cell, or the version to see whether it has changed. -/
  | look (token : Token) (loads : List (ι × α)) (probe : Probe ι α)
  /-- Load the version to see whether it can be locked. -/
  | readVersion (insists : Bool) (body : Body ι α .nothing)
  /-- Exchange the version for its locked form, unless it has changed. -/
  | swapVersion (insists : Bool) (body : Body ι α .nothing) (expected : Version)
  /-- Load or store a cell, or load the version to mark a change or to unlock. -/
  | inside (done : Done) (body : Body ι α done)
  /-- Store the version marked. -/
  | storeMark (done : Done) (rest : Body ι α .marked) (marked : Version)
  /-- Store the version unlocked. -/
  | storeUnlock (isMarked : Bool) (unlocked : Version)

/-- Where a client stands after an access. -/
inductive Progress (ι α : Type) where
  | next (stage : Stage ι α)
  | ended (reply : Reply ι α)
  | broken (cause : Fault)

structure Memory (ι α : Type) where
  version : Version
  cells : ι → α

variable {κ ι α : Type}

def Task.start : Task ι α → Stage ι α
  | read probe => .takeToken probe
  | write insists body => .readVersion insists body

namespace Stage

def turnedAway (insists : Bool) (body : Body ι α .nothing) : Progress ι α :=
  if insists then .next (.readVersion insists body) else .ended .refused

/-- The access completes a section with a marked change. -/
def completes : Stage ι α → Bool
  | storeUnlock isMarked _ => isMarked
  | _ => false

def withVersion (version : Except Fault Version) (next : Version → Stage ι α) : Progress ι α :=
  match version with
  | .ok version => .next (next version)
  | .error cause => .broken cause

variable [DecidableEq ι]

def step (memory : Memory ι α) : Stage ι α → Progress ι α × Memory ι α
  | takeToken probe =>
    match memory.version.stable? with
    | none => (.next (.takeToken probe), memory)
    | some token => (.next (.look token [] probe), memory)
  | look token loads .finish =>
    (.ended (.read token loads (memory.version.hasChanged token)), memory)
  | look token loads (.load cell rest) =>
    let value := memory.cells cell
    (.next (.look token (loads ++ [(cell, value)]) (rest value)), memory)
  | look token loads (.ask rest) =>
    (.next (.look token loads (rest (memory.version.hasChanged token))), memory)
  | readVersion insists body =>
    if memory.version.isBusy then (turnedAway insists body, memory)
    else (.next (.swapVersion insists body memory.version), memory)
  | swapVersion insists body expected =>
    if memory.version = expected then
      (.next (.inside .nothing body), { memory with version := expected.locked })
    else (turnedAway insists body, memory)
  | inside done (.finish _) =>
    (withVersion memory.version.unlock (.storeUnlock (done == .marked)), memory)
  | inside done (.mark rest) =>
    (withVersion memory.version.markInsert (.storeMark done rest), memory)
  | inside done (.store cell value rest) =>
    (.next (.inside done.store rest),
      { memory with cells := Function.update memory.cells cell value })
  | inside done (.load cell rest) => (.next (.inside done (rest (memory.cells cell))), memory)
  | storeMark _ rest marked => (.next (.inside .marked rest), { memory with version := marked })
  | storeUnlock isMarked unlocked =>
    (.ended (.written isMarked), { memory with version := unlocked })

end Stage

/-- A client: the tasks to come, the stage of the one under way, and the replies to those that are
over. -/
structure Client (ι α : Type) where
  todo : List (Task ι α)
  stage : Option (Stage ι α)
  replies : List (Reply ι α)
  /-- The contract that the client saw broken, which ends its work. -/
  broken : Option Fault

namespace Client

def ofTasks (tasks : List (Task ι α)) : Client ι α := ⟨tasks, none, [], none⟩

def advance (client : Client ι α) : Progress ι α → Client ι α
  | .next stage => { client with stage := some stage }
  | .ended reply => { client with stage := none, replies := client.replies ++ [reply] }
  | .broken cause => { client with todo := [], stage := none, broken := some cause }

/-- Takes up the next task, or makes one access for the task under way. -/
def step [DecidableEq ι] (client : Client ι α) (memory : Memory ι α) :
    Client ι α × Memory ι α :=
  match client.stage with
  | some stage => (client.advance (stage.step memory).1, (stage.step memory).2)
  | none =>
    match client.todo with
    | [] => (client, memory)
    | task :: todo => ({ client with todo := todo, stage := some task.start }, memory)

end Client

/-- The memory and the clients that work on it. -/
structure State (κ ι α : Type) where
  memory : Memory ι α
  clients : κ → Client ι α

namespace State

def ofTasks (word : UInt32) (cells : ι → α) (tasks : κ → List (Task ι α)) : State κ ι α :=
  ⟨⟨⟨word⟩, cells⟩, fun c => .ofTasks (tasks c)⟩

variable [DecidableEq κ] [DecidableEq ι]

def step (state : State κ ι α) (c : κ) : State κ ι α :=
  let (client, memory) := (state.clients c).step state.memory
  ⟨memory, Function.update state.clients c client⟩

def run (state : State κ ι α) (schedule : List κ) : State κ ι α := schedule.foldl step state

/-- The step of a client completes a section with a marked change. -/
def completes (state : State κ ι α) (c : κ) : Bool := (state.clients c).stage.any Stage.completes

/-- The sections with a marked change that are completed on a schedule. -/
def completions (state : State κ ι α) : List κ → Nat
  | [] => 0
  | c :: rest => (state.completes c).toNat + (state.step c).completions rest

end State

end Seqlock

end FanoutIndex
