import FanoutIndex.Proofs.Concurrent.Requests

namespace FanoutIndex

variable {w n : Nat} {V : Type}

namespace System

def owedBy (system : System w n V) (count : Phase → Nat) (c : Nat) : Nat :=
  (system.task? c).elim 0 fun task => count task.2.phase

/-- What all clients have not counted yet. -/
def owed (system : System w n V) (count : Phase → Nat) : Nat :=
  ∑ c ∈ Finset.range system.clients.size, system.owedBy count c

/-- The counters and what is owed to them make the contents. -/
structure Counted (system : System w n V) : Prop where
  entries : system.tree.entries.ncard = system.tree.len + system.owed Phase.entries
  nodes : system.tree.reached.ncard = system.tree.nodeCount + system.owed Phase.nodes

variable {system before after : System w n V} {client : Client w n V} {count : Phase → Nat}
  {d : Nat}

theorem size_clients_step (system : System w n V) (c : Nat) :
    (system.step c).clients.size = system.clients.size := by
  obtain ⟨tree, clients⟩ := system
  rw [step]
  split
  · next h => exact Array.size_set h
  · rfl

theorem owedBy_of_client {c : Nat} (h : system.clients[c]? = some client) :
    system.owedBy count c = client.task.elim 0 fun task => count task.2.phase := by
  rw [owedBy, task?_of_client h]

theorem owed_of_clients (size : after.clients.size = before.clients.size)
    (here : d < before.clients.size)
    (others : ∀ e, e ≠ d → after.clients[e]? = before.clients[e]?) :
    after.owed count + before.owedBy count d = before.owed count + after.owedBy count d := by
  have hd : d ∈ Finset.range before.clients.size := Finset.mem_range.2 here
  have hsame : ∑ e ∈ (Finset.range before.clients.size).erase d, after.owedBy count e =
      ∑ e ∈ (Finset.range before.clients.size).erase d, before.owedBy count e := by
    apply Finset.sum_congr rfl
    intro e he
    rw [owedBy, owedBy, task?_of_ne (others e (Finset.ne_of_mem_erase he))]
  rw [owed, owed, size, ← Finset.add_sum_erase _ (after.owedBy count) hd,
    ← Finset.add_sum_erase _ (before.owedBy count) hd, hsame]
  omega

theorem owed_of_idle (idle : ∀ c, system.task? c = none) : system.owed count = 0 := by
  apply Finset.sum_eq_zero
  intro c _
  rw [owedBy, idle]
  rfl

theorem Counted.step (hw : 0 < w) (ok : system.Ok)
    (counted : system.Counted) (d : Nat) : (system.step d).Counted := by
  have size := size_clients_step system d
  have moves := step_moves system d
  generalize system.step d = after at size moves
  cases moves with
  | rest => exact counted
  | @take _ client request todo here idle next tree clients =>
    obtain ⟨hd, _⟩ := Array.getElem?_eq_some_iff.1 here
    have hafter := (clients d).trans (if_pos rfl)
    have howed {count : Phase → Nat} (zero : count .searching = 0) :
        after.owed count = system.owed count := by
      have hsum : after.owed count + system.owedBy count d = _ :=
        owed_of_clients size hd fun e he => (clients e).trans (if_neg he)
      rw [owedBy_of_client here, owedBy_of_client hafter, idle] at hsum
      exact hsum.trans (congrArg (system.owed count + ·) zero)
    constructor
    · rw [tree, howed rfl]
      exact counted.entries
    · rw [tree, howed rfl]
      exact counted.nodes
  | @access _ client request stage here task tree clients =>
    obtain ⟨hd, _⟩ := Array.getElem?_eq_some_iff.1 here
    have hafter := (clients d).trans (if_pos rfl)
    have accounts := Stage.accounts_step hw ok.wellformed
      (ok.holds ((task?_of_client here).trans task))
    -- What the access owes to the counters is what its client owes from now on.
    have howed (count : Phase → Nat) : after.owed count + count stage.phase =
        system.owed count + (stage.step request system.tree).1.owed count := by
      have hsum : after.owed count + system.owedBy count d = _ :=
        owed_of_clients size hd fun e he => (clients e).trans (if_neg he)
      rw [owedBy_of_client here, owedBy_of_client hafter, task] at hsum
      refine hsum.trans (congrArg (system.owed count + ·) ?_)
      cases (stage.step request system.tree).1 <;> rfl
    constructor
    · have hentries := accounts.entries
      have hsum := howed Phase.entries
      have hcounted := counted.entries
      rw [tree]
      omega
    · have hnodes := accounts.nodes
      have hsum := howed Phase.nodes
      have hcounted := counted.nodes
      rw [tree]
      omega

theorem Counted.run (hw : 0 < w) (wide : w < 2 ^ 29) (ok : system.Ok) (counted : system.Counted)
    (schedule : List Nat) : (system.run schedule).Counted := by
  induction schedule generalizing system with
  | nil => exact counted
  | cons c schedule ih =>
    rw [run_cons]
    exact ih (ok.step wide c) (counted.step hw ok c)

theorem counted_ofRequests (width : Nat) (requests : List (List (Request n V))) :
    (ofRequests (Tree.empty width : Tree w n V) requests).Counted := by
  have howed (count : Phase → Nat) :
      (ofRequests (Tree.empty width : Tree w n V) requests).owed count = 0 :=
    owed_of_idle fun c => task?_ofRequests _ requests c
  constructor
  · rw [howed]
    exact (congrArg Set.ncard (Tree.entries_empty width)).trans (Set.ncard_empty _)
  · rw [howed]
    exact (congrArg Set.ncard (Tree.reached_empty width)).trans (Set.ncard_singleton _)

end System

end FanoutIndex
