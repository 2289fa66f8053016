import FanoutIndex.Access.Lemmas
import FanoutIndex.Proofs.Layout.Contents
import FanoutIndex.Session.Perform

/-!
# The rendering of a tree

A tree is rendered by recursion: the line of a node, then the renderings of its children in the
order of their links, each behind the rails of the nodes above it. The dump, which keeps the lines
to come on a stack, writes this text, and a writer that takes so many bytes gets just the first of
it.
-/

namespace FanoutIndex

variable {w n : Nat} {V : Type}

section Rendering

variable [Printed V]

/-- The entry in a slot, or that there is none. -/
def Node.slotText (node : Node w n V) (slot : Fin w) : String :=
  match node.stored? slot with
  | some (key, value) =>
    toString slot.val ++ ":(" ++ key.printable ++ ":" ++ Printed.text value ++ "); "
  | none => toString slot.val ++ ":(null:null); "

theorem Node.printSlot_eq (node : Node w n V) (slot : Fin w) :
    node.printSlot slot = node.slotText slot := by
  rw [printSlot, slotText, stored?, key?, isOccupied]
  cases node.values.get slot with
  | none => rfl
  | some value => rfl

theorem join_filterMap {α : Type} (text : α → Option String) (l : List α) :
    String.join (l.filterMap text) = String.join (l.map fun a => (text a).getD "") := by
  induction l with
  | nil => rfl
  | cons a rest ih =>
    rw [List.filterMap_cons, List.map_cons, String.join_cons, ← ih]
    cases text a with
    | none => simp
    | some t => simp

namespace Tree

variable (tree : Tree w n V)

/-- What the part of a tree below a node looks like, behind the rails of the nodes above. -/
def renderFrom (i : Nat) (rails : String) (isBranch : Bool) (link : Nat) : String :=
  rails ++ (if isBranch then Rail.branch else Rail.last) ++ "C(" ++ toString link ++ ")= " ++
    String.join ((List.finRange w).map (tree.node i).slotText) ++ "\n" ++
    String.join ((List.finRange (w + 1)).map fun l =>
      match _down : (tree.node i).links.get l with
      | none => ""
      | some child =>
        renderFrom child (rails ++ if isBranch then Rail.pass else Rail.blank) (l.val != w) l.val)
  termination_by tree.nodes.size - i
  decreasing_by
    have hlt := tree.lt_of_link _down
    omega

def rendering : String := tree.renderFrom root "" false 0

/-- What a line and all that is below it look like. -/
def renderLine (line : Line) : String :=
  tree.renderFrom line.node line.rails line.isBranch line.link

theorem renderLine_eq (line : Line) : tree.renderLine line =
    String.join (tree.linePieces line) ++
      String.join ((tree.linesUnder line).map tree.renderLine) := by
  have hslots : (tree.node line.node).printSlot = (tree.node line.node).slotText :=
    funext fun slot => (tree.node line.node).printSlot_eq slot
  have hbelow : (tree.linesUnder line).map tree.renderLine =
      (List.finRange (w + 1)).filterMap fun l =>
        ((tree.node line.node).links.get l).map fun child =>
          tree.renderLine ⟨child, line.rails ++ if line.isBranch then Rail.pass else Rail.blank,
            l.val != w, l.val⟩ := by
    simp only [linesUnder, children, Node.children, List.map_filterMap, Option.map_map]
    rfl
  rw [renderLine, renderFrom, linePieces, hbelow, join_filterMap, hslots]
  simp only [String.join_append, String.join_cons, String.join_nil, List.cons_append,
    String.append_assoc, String.append_empty]
  congr 7
  refine congrArg String.join (List.map_congr_left fun l _ => ?_)
  split
  · next hnone => rw [hnone]; rfl
  · next child hsome => rw [hsome]; rfl

omit [Printed V] in
theorem stackWeight_linesUnder_lt (line : Line) (rest : List Line) :
    tree.stackWeight ((tree.linesUnder line ++ rest).map (·.node)) <
      tree.stackWeight ((line :: rest).map (·.node)) := by
  have hlt := tree.stackWeight_children_lt line.node
  have hnodes : (tree.linesUnder line).map (·.node) = (tree.children line.node).map (·.2) := by
    simp [linesUnder]
  rw [List.map_append, hnodes, stackWeight_append, List.map_cons, stackWeight_cons]
  omega

/-- The pieces that are written for the lines on a stack and what is below them. -/
def piecesFrom (stack : List Line) : List String :=
  match stack with
  | [] => []
  | line :: rest => tree.linePieces line ++ piecesFrom (tree.linesUnder line ++ rest)
  termination_by tree.stackWeight (stack.map (·.node))
  decreasing_by exact tree.stackWeight_linesUnder_lt line rest

theorem dumpFrom_eq_forM {m : Type → Type} [Monad m] [LawfulMonad m] (write : String → m Unit)
    (stack : List Line) : tree.dumpFrom write stack = (tree.piecesFrom stack).forM write := by
  fun_induction piecesFrom with
  | case1 =>
    rw [dumpFrom]
    rfl
  | case2 line rest ih =>
    simp only [dumpFrom, ih, List.forM_eq_forM, List.forM_append]

theorem join_piecesFrom (stack : List Line) :
    String.join (tree.piecesFrom stack) = String.join (stack.map tree.renderLine) := by
  fun_induction piecesFrom with
  | case1 => rfl
  | case2 line rest ih =>
    rw [String.join_append, ih, List.map_append, String.join_append, ← String.append_assoc,
      ← renderLine_eq, List.map_cons, String.join_cons]

end Tree

end Rendering

namespace BoundedWriter

def bytesOf (text : String) : Bytes := text.toUTF8.data.toList

theorem bytesOf_append (a b : String) : bytesOf (a ++ b) = bytesOf a ++ bytesOf b := by
  simp [bytesOf]

def afterBytes (writer : BoundedWriter) (bytes : Bytes) : Except WriteError Unit × BoundedWriter :=
  (if bytes.length ≤ writer.room then .ok () else .error .full,
    ⟨writer.room - bytes.length, writer.taken ++ bytes.take writer.room⟩)

theorem run_write (text : String) (writer : BoundedWriter) :
    (write text).run.run writer = writer.afterBytes (bytesOf text) := by
  have hrest : (write text).run.run writer =
      (if writer.room < (bytesOf text).length then throw WriteError.full else pure () :
        ExceptT WriteError (StateM BoundedWriter) Unit).run.run
          ⟨writer.room - (bytesOf text).length,
            writer.taken ++ (bytesOf text).take writer.room⟩ := rfl
  rw [hrest, afterBytes]
  by_cases hfull : writer.room < (bytesOf text).length
  · rw [if_pos hfull, if_neg (Nat.not_le.2 hfull)]
    rfl
  · rw [if_neg hfull, if_pos (Nat.not_lt.1 hfull)]
    rfl

/-- Pieces that are written one after the other come out as their whole text does. -/
theorem run_forM_write (pieces : List String) (writer : BoundedWriter) :
    (pieces.forM write).run.run writer = writer.afterBytes (bytesOf (String.join pieces)) := by
  induction pieces generalizing writer with
  | nil => simp [afterBytes, bytesOf]; rfl
  | cons piece rest ih =>
    have hcons : (piece :: rest).forM write = (write piece >>= fun _ => rest.forM write) := rfl
    rw [hcons, ExceptT.run_bind, StateT.run_bind, run_write, String.join_cons, bytesOf_append]
    by_cases hfits : (bytesOf piece).length ≤ writer.room
    · have hroom : (bytesOf (String.join rest)).length ≤ writer.room - (bytesOf piece).length ↔
          (bytesOf piece).length + (bytesOf (String.join rest)).length ≤ writer.room := by
        omega
      rw [afterBytes, if_pos hfits]
      refine (ih _).trans ?_
      simp only [afterBytes, List.length_append, List.take_append, List.append_assoc,
        Nat.sub_sub, hroom]
    · have hlong : ¬ (bytesOf piece ++ bytesOf (String.join rest)).length ≤ writer.room := by
        rw [List.length_append]
        omega
      rw [afterBytes, if_neg hfits, afterBytes, if_neg hlong,
        List.take_append_of_le_length (by omega), Nat.sub_eq_zero_of_le (by omega),
        Nat.sub_eq_zero_of_le (by omega)]
      rfl

end BoundedWriter

/-- Pieces that are appended one after the other make their whole text. -/
theorem run_forM_append (pieces : List String) (text : String) :
    ((pieces.forM fun piece =>
      (modify fun text => text ++ piece : StateM String Unit)).run text).2 =
        text ++ String.join pieces := by
  induction pieces generalizing text with
  | nil => exact String.append_empty.symm
  | cons piece rest ih =>
    rw [String.join_cons, ← String.append_assoc]
    exact ih (text ++ piece)

theorem Tree.join_piecesFrom_root [Printed V] (tree : Tree w n V) :
    String.join (tree.piecesFrom [⟨root, "", false, 0⟩]) = tree.rendering := by
  rw [join_piecesFrom, List.map_cons, List.map_nil, String.join_cons, String.join_nil,
    String.append_empty]
  rfl

theorem Tree.print_eq [Printed V] (tree : Tree w n V) : tree.print = tree.rendering := by
  rw [print, dump, dumpFrom_eq_forM, run_forM_append, join_piecesFrom_root, String.empty_append]

/-- A bounded writer takes the first bytes of the rendering, as many as it has room for, and fails
if that is not all of them. -/
theorem BoundedWriter.dump_eq [Printed V] (tree : Tree w n V) (room : Nat) :
    dump tree room =
      (if (bytesOf tree.rendering).length ≤ room then .ok () else .error .full,
        ⟨room - (bytesOf tree.rendering).length, (bytesOf tree.rendering).take room⟩) := by
  rw [dump, Tree.dump, Tree.dumpFrom_eq_forM, run_forM_write, Tree.join_piecesFrom_root, afterBytes,
    List.nil_append]

namespace Operation

/-- Printing writes the rendering of the tree, into a bounded writer just as many of its first bytes
as there is room for, which is all of it if and only if the writer does not fail. Neither changes
the tree. -/
theorem print_writes_rendering :
    (∀ (V : Type) [Printed V] (tree : Tree w n V) (room : Nat),
      tree.print = tree.rendering ∧
      BoundedWriter.dump tree room =
        (if (BoundedWriter.bytesOf tree.rendering).length ≤ room then .ok () else .error .full,
          ⟨room - (BoundedWriter.bytesOf tree.rendering).length,
            (BoundedWriter.bytesOf tree.rendering).take room⟩)) ∧
    ∀ (run : Run w n String) (held : Option Lock) (room : Nat),
      exec (perform held .print) run = some (.ok (.printed run.tree.rendering), run) ∧
      exec (perform held (.printBounded room)) run =
        some (.ok (.written ((BoundedWriter.bytesOf run.tree.rendering).take room)
          ((BoundedWriter.bytesOf run.tree.rendering).length ≤ room)), run) := by
  refine ⟨fun V _ tree room => ⟨tree.print_eq, BoundedWriter.dump_eq tree room⟩,
    fun run held room => ⟨?_, ?_⟩⟩
  · rw [perform, exec_bind_ok (exec_tree run), run.tree.print_eq]
    rfl
  · rw [perform, exec_bind_ok (exec_tree run), BoundedWriter.dump_eq]
    by_cases hfits : (BoundedWriter.bytesOf run.tree.rendering).length ≤ room
    · rw [if_pos hfits, decide_eq_true hfits]
      rfl
    · rw [if_neg hfits, decide_eq_false hfits]
      rfl

end Operation

end FanoutIndex
