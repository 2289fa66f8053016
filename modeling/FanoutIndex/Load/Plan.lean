import FanoutIndex.Config
import FanoutIndex.Tree.Check

/-!
# Load plans

A load is put on an index by several clients, each of which puts its own run of numbers. How many
clients and how many numbers for each comes from the command line, the key width from the
environment. All numbers of a load fit into 64 bits.
-/

namespace FanoutIndex

namespace Load

def defaultClients : Nat := 4

def defaultShare : Nat := 10000

/-- Loads of at most so many numbers are shown in full. -/
def dumpLimit : Nat := 64

/-- An odd word: multiplication by it scatters the numbers and keeps them apart. -/
def mix : UInt64 := 0x9e3779b97f4a7c15

def keyFor (m : UInt64) : Bytes := unpackWord (m * mix)

inductive Failure where
  | notANumber (position : Nat) (text : String)
  | overflow (clients share : Nat)
  | config (cause : ConfigError)
  | narrowKeys (width : Nat)
  | violation (cause : Violation)
  | fault (cause : Fault)
  /-- Some numbers were not found again, or the index counts another number of keys. -/
  | incomplete (missing len total : Nat)
  deriving DecidableEq, Repr

def Failure.message : Failure → String
  | notANumber position text =>
    "argument " ++ toString position ++ ": expected a number, got " ++ Text.quote text
  | overflow clients share =>
    toString clients ++ " threads x " ++ toString share ++ " keys overflows"
  | config cause => cause.message
  | narrowKeys width => "key width " ++ toString width ++ " is too small for 8-byte demo keys"
  | violation cause => cause.message
  | fault cause => cause.message
  | incomplete missing len total =>
    toString missing ++ " keys missing or wrong, len " ++ toString len ++ " != " ++ toString total

/-- The number at a position of the command line, counted from 1. -/
def argument (arguments : List String) (position default : Nat) : Except Failure Nat :=
  match arguments[position - 1]? with
  | none => .ok default
  | some text =>
    match Text.numeral? text.toList with
    | some value => .ok value
    | none => .error (.notANumber position text)

/-- All the numbers of a load, if that many fit into 64 bits. -/
def total (clients share : Nat) : Except Failure Nat :=
  if clients * share < UInt64.size then .ok (clients * share) else .error (.overflow clients share)

end Load

/-- A load that can be carried out. -/
structure LoadPlan where
  clients : Nat
  share : Nat
  total : Nat
  keyWidth : Nat
  deriving DecidableEq, Repr

namespace LoadPlan

/-- Reads the command line, then the environment. There is at least one client. -/
def ofArguments (arguments : List String) (environment : Option ByteArray) :
    Except Load.Failure LoadPlan := do
  let clients := max 1 (← Load.argument arguments 1 Load.defaultClients)
  let share ← Load.argument arguments 2 Load.defaultShare
  let total ← Load.total clients share
  let config ← (Config.ofEnvironment environment).mapError .config
  let keyWidth ← (config.resolveKeyWidth (Key.capacity defaultWords)).mapError .config
  if keyWidth < bytesPerWord then throw (.narrowKeys keyWidth)
  return { clients, share, total, keyWidth }

def numbersOf (plan : LoadPlan) (client : Nat) : List UInt64 :=
  (List.range plan.share).map fun i => (client * plan.share + i).toUInt64

def numbers (plan : LoadPlan) : List UInt64 := (List.range plan.clients).flatMap plan.numbersOf

end LoadPlan

end FanoutIndex
