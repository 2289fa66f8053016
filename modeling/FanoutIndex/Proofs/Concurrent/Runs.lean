import FanoutIndex.Proofs.Concurrent.Writes
import FanoutIndex.Proofs.Scripted.Built

/-!
# Runs

Whatever the order of their steps, every client can rely on what its stage tells: no two of them
hold the lock of one node or are going to hang the same node, and none ever sees a contract broken.
-/

namespace FanoutIndex

variable {w n : Nat} {V : Type}

namespace Stage

/-- Two clients at these stages are not in each other's way. -/
structure Apart (stage theirs : Stage w n V) : Prop where
  locks : stage.isHolding = true → theirs.isHolding = true → stage.node ≠ theirs.node
  children : ∀ child, stage.child? = some child → theirs.child? ≠ some child

variable {stage theirs : Stage w n V}

theorem Apart.symm (h : stage.Apart theirs) : theirs.Apart stage where
  locks := fun held holding => (h.locks holding held).symm
  children := fun child htheirs hmine => h.children child hmine htheirs

theorem Apart.start : start.Apart theirs where
  locks := fun h => nomatch h
  children := fun _ h => nomatch h

end Stage

namespace Tree

theorem wellformed_empty (width : Nat) : (empty width : Tree w n V).Wellformed where
  size := Nat.zero_lt_one
  sound := by
    rw [layout_empty]
    exact Layout.Sound.bare
  counted := by
    intro i
    rw [node_empty, Node.changes_empty]
    exact Nat.zero_le _

end Tree

namespace Client

variable {client : Client w n V} {request : Request n V} {stage : Stage w n V}

def advance (client : Client w n V) (request : Request n V) : Progress w n V → Client w n V
  | .next stage => { client with task := some (request, stage) }
  | .ended reply =>
    { client with task := none, replies := client.replies.push (request, reply) }
  | .broken cause => ⟨[], none, client.replies, some cause⟩

theorem step_of_task (tree : Tree w n V) (h : client.task = some (request, stage)) :
    client.step tree =
      (client.advance request (stage.step request tree).1, (stage.step request tree).2) := by
  obtain ⟨todo, task, replies, broken⟩ := client
  cases h
  rw [step]
  rcases stage.step request tree with ⟨_ | _ | _, after⟩ <;> rfl

theorem step_of_todo {todo : List (Request n V)} (tree : Tree w n V) (rest : client.task = none)
    (h : client.todo = request :: todo) :
    client.step tree = ({ client with todo := todo, task := some (request, .start) }, tree) := by
  obtain ⟨_, _, replies, broken⟩ := client
  cases rest
  cases h
  rfl

theorem step_of_idle (tree : Tree w n V) (rest : client.task = none) (h : client.todo = []) :
    client.step tree = (client, tree) := by
  obtain ⟨_, _, replies, broken⟩ := client
  cases rest
  cases h
  rfl

end Client

namespace System

def task? (system : System w n V) (c : Nat) : Option (Request n V × Stage w n V) :=
  system.clients[c]?.bind Client.task

/-- What a step of a client does to the system. -/
inductive Moves (before : System w n V) (c : Nat) : System w n V → Prop
  /-- There is nothing to do. -/
  | rest (idle : before.task? c = none) : Moves before c before
  /-- The client takes up a request. -/
  | take {after : System w n V} {client : Client w n V} {request : Request n V}
      {todo : List (Request n V)} (here : before.clients[c]? = some client)
      (idle : client.task = none) (next : client.todo = request :: todo)
      (tree : after.tree = before.tree)
      (clients : ∀ d, after.clients[d]? =
        if d = c then some { client with todo := todo, task := some (request, .start) }
        else before.clients[d]?) : Moves before c after
  /-- The client makes an access. -/
  | access {after : System w n V} {client : Client w n V} {request : Request n V}
      {stage : Stage w n V} (here : before.clients[c]? = some client)
      (task : client.task = some (request, stage))
      (tree : after.tree = (stage.step request before.tree).2)
      (clients : ∀ d, after.clients[d]? =
        if d = c then some (client.advance request (stage.step request before.tree).1)
        else before.clients[d]?) : Moves before c after

variable {system before after : System w n V} {c d : Nat} {client : Client w n V}

theorem step_of_none (h : system.clients[c]? = none) : system.step c = system := by
  rw [Array.getElem?_eq_none_iff] at h
  rw [step]
  exact dif_neg (Nat.not_lt.2 h)

theorem tree_step (h : system.clients[c]? = some client) :
    (system.step c).tree = (client.step system.tree).2 := by
  obtain ⟨hlt, rfl⟩ := Array.getElem?_eq_some_iff.1 h
  rw [step]
  split
  · rfl
  · contradiction

theorem clients_step (h : system.clients[c]? = some client) :
    (system.step c).clients[d]? =
      if d = c then some (client.step system.tree).1 else system.clients[d]? := by
  obtain ⟨hlt, rfl⟩ := Array.getElem?_eq_some_iff.1 h
  have hclients : (system.step c).clients =
      system.clients.set c (system.clients[c].step system.tree).1 := by
    rw [step]
    split
    · rfl
    · contradiction
  rw [hclients, Array.getElem?_set]
  by_cases hd : c = d
  · simp [hd]
  · simp [hd, Ne.symm hd]

theorem step_moves (system : System w n V) (c : Nat) : system.Moves c (system.step c) := by
  cases hc : system.clients[c]? with
  | none =>
    rw [step_of_none hc]
    exact .rest (by rw [task?, hc]; rfl)
  | some client =>
    cases htask : client.task with
    | some task =>
      obtain ⟨request, stage⟩ := task
      have hstep := client.step_of_task system.tree htask
      exact .access hc htask (by rw [tree_step hc, hstep]) fun d => by rw [clients_step hc, hstep]
    | none =>
      cases htodo : client.todo with
      | cons request todo =>
        have hstep := client.step_of_todo system.tree htask htodo
        exact .take hc htask htodo (by rw [tree_step hc, hstep]) fun d => by
          rw [clients_step hc, hstep]
      | nil =>
        have hstep := client.step_of_idle system.tree htask htodo
        have hsame : system.step c = system := by
          obtain ⟨hlt, rfl⟩ := Array.getElem?_eq_some_iff.1 hc
          obtain ⟨tree, clients⟩ := system
          rw [step]
          simp only [hlt, dite_true]
          rw [hstep, Array.set_getElem_self]
        rw [hsame]
        exact .rest (by rw [task?, hc]; exact htask)

section Tasks

variable {request : Request n V} {stage : Stage w n V}

theorem task?_of_client (h : system.clients[c]? = some client) : system.task? c = client.task := by
  rw [task?, h]
  rfl

theorem task?_of_ne (h : after.clients[d]? = before.clients[d]?) :
    after.task? d = before.task? d := by
  rw [task?, task?, h]

end Tasks

/-- The tree is in order, every client can rely on what it knows, and no client is in the way of
another. -/
structure Ok (system : System w n V) : Prop where
  wellformed : system.tree.Wellformed
  holds : ∀ {c : Nat} {request stage}, system.task? c = some (request, stage) →
    stage.Holds system.tree request
  apart : ∀ {c d : Nat} {request other stage theirs}, c ≠ d → system.task? c = some (request, stage) →
    system.task? d = some (other, theirs) → stage.Apart theirs
  unbroken : ∀ {c : Nat} {client : Client w n V}, system.clients[c]? = some client → client.broken = none

/-- If one client goes on with what it can rely on, and apart from the others, so do all. -/
theorem Ok.of_client (ok : before.Ok) (wellformed : after.tree.Wellformed)
    (clients : ∀ d, after.clients[d]? = if d = c then some client else before.clients[d]?)
    (unbroken : client.broken = none)
    (mine : ∀ request stage, client.task = some (request, stage) →
      stage.Holds after.tree request ∧ ∀ d other theirs, c ≠ d →
        before.task? d = some (other, theirs) → stage.Apart theirs)
    (others : ∀ d other theirs, c ≠ d → before.task? d = some (other, theirs) →
      theirs.Holds after.tree other) : after.Ok := by
  have hmine : after.task? c = client.task := task?_of_client ((clients c).trans (if_pos rfl))
  have hothers {d : Nat} (hd : c ≠ d) : after.task? d = before.task? d :=
    task?_of_ne ((clients d).trans (if_neg (Ne.symm hd)))
  refine ⟨wellformed, ?_, ?_, ?_⟩
  · intro d request stage hd
    by_cases hc : c = d
    · subst hc
      exact (mine request stage (hmine.symm.trans hd)).1
    · exact others d request stage hc ((hothers hc).symm.trans hd)
  · intro d e request other stage theirs hne hd he
    by_cases hcd : c = d
    · subst hcd
      exact (mine request stage (hmine.symm.trans hd)).2 e other theirs hne
        ((hothers hne).symm.trans he)
    · by_cases hce : c = e
      · subst hce
        exact ((mine other theirs (hmine.symm.trans he)).2 d request stage hcd
          ((hothers hcd).symm.trans hd)).symm
      · exact ok.apart hne ((hothers hcd).symm.trans hd) ((hothers hce).symm.trans he)
  · intro d other hd
    rw [clients] at hd
    split_ifs at hd
    · obtain rfl := Option.some.inj hd
      exact unbroken
    · exact ok.unbroken hd

section Access

variable {request other : Request n V} {stage theirs following : Stage w n V}

theorem Ok.apart_of_follows (ok : before.Ok) (his : before.task? d = some (other, theirs))
    (apart : stage.Apart theirs)
    (follows : (Progress.next following).Follows before.tree after.tree request stage) :
    following.Apart theirs := by
  obtain ⟨_, hlock, hchild⟩ := follows
  have his := ok.holds his
  constructor
  · intro holding held hnode
    -- The lock was held before, or it was free and the other client has another one.
    rcases hlock holding with ⟨hheld, hsame⟩ | hfree
    · exact apart.locks hheld held (hsame.trans hnode)
    · have hlocked := his.sees.isLocked held
      rw [← hnode, hfree] at hlocked
      cases hlocked
  · intro child hmine htheirs
    -- A node just created is younger than any that the other client knows.
    rcases hchild child hmine with h | rfl
    · exact apart.children child h htheirs
    · obtain ⟨_, _, _, spare⟩ := his.child _ htheirs
      exact Nat.lt_irrefl _ spare.known

end Access

/-- Every step of every client keeps the system in order. -/
theorem Ok.moves (wide : w < 2 ^ 29) (ok : before.Ok) (h : before.Moves c after) : after.Ok := by
  cases h with
  | rest => exact ok
  | @take _ client request todo here idle next tree clients =>
    have unbroken : client.broken = none := ok.unbroken here
    refine ok.of_client (tree ▸ ok.wellformed) clients unbroken ?_ ?_
    · rintro _ _ ⟨⟩
      exact ⟨Stage.holds_start, fun _ _ _ _ _ => .start⟩
    · intro d other theirs _ his
      rw [tree]
      exact ok.holds his
  | @access _ client request stage here task tree clients =>
    have mine : before.task? c = some (request, stage) := (task?_of_client here).trans task
    have unbroken : client.broken = none := ok.unbroken here
    obtain ⟨steps, wellformed, follows⟩ :=
      Stage.keeps_step ok.wellformed wide (ok.holds mine)
    rw [← tree] at steps wellformed follows
    refine ok.of_client wellformed clients ?_ ?_ ?_
    · cases hprogress : (stage.step request before.tree).1 with
      | next following => exact unbroken
      | ended reply => exact unbroken
      | broken cause =>
        rw [hprogress] at follows
        cases follows
    · intro _ _ htask
      cases hprogress : (stage.step request before.tree).1 with
      | next following =>
        rw [hprogress] at follows htask
        cases htask
        exact ⟨follows.1, fun d other theirs hne his =>
          ok.apart_of_follows his (ok.apart hne mine his) follows⟩
      | ended reply =>
        rw [hprogress] at htask
        cases htask
      | broken cause =>
        rw [hprogress] at htask
        cases htask
    · intro d other theirs hne his
      have apart := ok.apart hne mine his
      exact (ok.holds his).steps (ok.holds mine) ok.wellformed.size steps
        (fun held holding => apart.locks holding held) fun child hchild hmine =>
          apart.children child hmine hchild

theorem Ok.step (wide : w < 2 ^ 29) (ok : system.Ok) (c : Nat) : (system.step c).Ok :=
  ok.moves wide (system.step_moves c)

theorem Ok.run (wide : w < 2 ^ 29) (ok : system.Ok) (schedule : List Nat) :
    (system.run schedule).Ok := by
  induction schedule generalizing system with
  | nil => exact ok
  | cons c schedule ih =>
    rw [run_cons]
    exact ih (ok.step wide c)

theorem clients_ofRequests (tree : Tree w n V) (requests : List (List (Request n V))) (c : Nat) :
    (ofRequests tree requests).clients[c]? = requests[c]?.map Client.ofRequests := by
  simp [ofRequests]

theorem task?_ofRequests (tree : Tree w n V) (requests : List (List (Request n V))) (c : Nat) :
    (ofRequests tree requests).task? c = none := by
  rw [task?, clients_ofRequests]
  cases requests[c]? <;> rfl

theorem ok_ofRequests (width : Nat) (requests : List (List (Request n V))) :
    (ofRequests (Tree.empty width : Tree w n V) requests).Ok where
  wellformed := Tree.wellformed_empty width
  holds := by
    intro c request stage h
    rw [task?_ofRequests] at h
    cases h
  apart := by
    intro c d request other stage theirs _ h
    rw [task?_ofRequests] at h
    cases h
  unbroken := by
    intro c client h
    rw [clients_ofRequests] at h
    obtain ⟨_, _, rfl⟩ := Option.map_eq_some_iff.1 h
    rfl

end System

end FanoutIndex
