import FanoutIndex.Node.Text
import FanoutIndex.Tree.Walk

/-!
# The dump

A tree prints as one line per node, in the order of the links, each under its parent and joined to
it by a rail. The text goes to a writer piece by piece, and the dump stops where the writer fails.
A bounded writer takes so many bytes and then fails.
-/

namespace FanoutIndex

namespace Tree

variable {w n : Nat} {V : Type} [Printed V] (tree : Tree w n V)

def linePieces (line : Line) : List String :=
  (line.rails ++ (if line.isBranch then Rail.branch else Rail.last) ++ "C(" ++ toString line.link
      ++ ")= ")
    :: (List.finRange w).map (tree.node line.node).printSlot
    ++ ["\n"]

omit [Printed V] in
/-- The lines of the children of a line, in the order of the links. -/
def linesUnder (line : Line) : List Line :=
  let rails := line.rails ++ if line.isBranch then Rail.pass else Rail.blank
  (tree.children line.node).map fun entry => ⟨entry.2, rails, entry.1.val != w, entry.1.val⟩

/-- Writes the lines on a stack, each followed by what is below it. -/
def dumpFrom {m : Type → Type} [Monad m] (write : String → m Unit) (stack : List Line) :
    m Unit :=
  match stack with
  | [] => pure ()
  | line :: rest => do
    (tree.linePieces line).forM write
    dumpFrom write (tree.linesUnder line ++ rest)
  termination_by tree.stackWeight (stack.map (·.node))
  decreasing_by
    have lt := tree.stackWeight_children_lt line.node
    have e : ((tree.linesUnder line ++ rest).map (·.node))
        = (tree.children line.node).map (·.2) ++ rest.map (·.node) := by
      simp [linesUnder]
    rw [e]
    simp only [stackWeight_append, List.map_cons, stackWeight_cons]
    omega

def dump {m : Type → Type} [Monad m] (write : String → m Unit) : m Unit :=
  tree.dumpFrom write [⟨root, "", false, 0⟩]

def print : String :=
  let append (piece : String) : StateM String Unit := modify fun text => text ++ piece
  ((tree.dump append).run "").2

omit [Printed V] in
def described : Text.Described :=
  .record "FourTree"
    [("width", .ofNat w), ("key_width", .ofNat tree.keyWidth), ("len", .ofNat tree.len),
      ("nodes", .ofNat tree.nodeCount)]
    true

end Tree

/-- A writer that takes a number of bytes and then fails. -/
structure BoundedWriter where
  /-- Bytes that it still takes. -/
  room : Nat
  /-- The bytes that it took. -/
  taken : List UInt8

inductive WriteError where
  | full
  deriving DecidableEq, Repr

namespace BoundedWriter

/-- Writes as much of a text as there is room for, and fails if that is not all of it. -/
def write (text : String) : ExceptT WriteError (StateM BoundedWriter) Unit := do
  let bytes := text.toUTF8.data.toList
  let writer ← getThe BoundedWriter
  set { room := writer.room - bytes.length, taken := writer.taken ++ bytes.take writer.room :
    BoundedWriter }
  if writer.room < bytes.length then throw .full

/-- Dumps a tree into a writer with the given room. -/
def dump {w n : Nat} {V : Type} [Printed V] (tree : Tree w n V) (room : Nat) :
    Except WriteError Unit × BoundedWriter :=
  (tree.dump write).run.run ⟨room, []⟩

end BoundedWriter

end FanoutIndex
