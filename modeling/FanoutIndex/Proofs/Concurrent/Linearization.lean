import FanoutIndex.Proofs.Concurrent.Counts
import FanoutIndex.Proofs.Concurrent.History

namespace FanoutIndex

variable {w n : Nat} {V : Type}

namespace System

/-- The run of a schedule is that of a map. A step is given by the part `p` of the schedule before
it and the client `c` that makes it. -/
structure Linearizes (start : System w n V) (schedule : List Nat) : Prop where
  /-- The contents are the entries of the nodes in use. -/
  exact : ∀ p, p <+: schedule → ∀ key value,
    (start.run p).tree.contents key = some value ↔ (start.run p).tree.Holds key value
  /-- The write of a put maps its key to its value -/
  writes : ∀ p c r entry, p ++ [c] <+: schedule → (start.run p).Writes c r entry →
    (start.run (p ++ [c])).tree.contents =
      Function.update (start.run p).tree.contents entry.1 (some entry.2)
  /-- and no other step changes the map. -/
  others : ∀ p c, p ++ [c] <+: schedule → (∀ r entry, ¬(start.run p).Writes c r entry) →
    (start.run (p ++ [c])).tree.contents = (start.run p).tree.contents
  /-- A put that is over made its write once, -/
  puts : ∀ c r key value reply, (start.run schedule).Answered c r (.put key value) reply →
    reply = .stored ∧ ∃! p, p ++ [c] <+: schedule ∧ (start.run p).Writes c r (key, value)
  /-- and no put makes it twice. -/
  once : ∀ c r entry other p q, p ++ [c] <+: schedule → q ++ [c] <+: schedule →
    (start.run p).Writes c r entry → (start.run q).Writes c r other → p = q
  /-- A get that is over was answered with the value that its key had while it was under way. -/
  gets : ∀ c r key reply, (start.run schedule).Answered c r (.get key) reply →
    ∃ p, p ++ [c] <+: schedule ∧ (start.run p).Serves c r (.get key) ∧
      (start.run (p ++ [c])).Answered c r (.get key) reply ∧
      reply = .found ((start.run p).tree.contents key)
  /-- No request is lost. -/
  requests : ∀ c : Nat, (start.run schedule).clients[c]?.map Client.requests =
    start.clients[c]?.map Client.requests
  /-- When nobody is at work, the counters are exact. -/
  counts : (∀ c, (start.run schedule).task? c = none) →
    (start.run schedule).tree.len = (start.run schedule).tree.entries.ncard ∧
      (start.run schedule).tree.nodeCount = (start.run schedule).tree.reached.ncard

section Run

variable {start : System w n V} (hw : 0 < w) (wide : w < 2 ^ 29) (ok : start.Ok)

include hw wide ok

theorem contents_run_snoc (p : List Nat) (c : Nat) : (start.run (p ++ [c])).tree.contents =
    match (start.run p).effect? c with
    | none => (start.run p).tree.contents
    | some entry => Function.update (start.run p).tree.contents entry.1 (some entry.2) := by
  rw [run_snoc]
  exact (ok.run wide p).contents_moves hw wide (step_moves _ c)

theorem linearizes (fresh : start.IsFresh) (counted : start.Counted) (schedule : List Nat) :
    start.Linearizes schedule where
  exact := fun p _ key value =>
    Tree.contents_eq_some_iff (ok.run wide p).wellformed.sound
  writes := by
    intro p c r entry _ hwrites
    rw [contents_run_snoc hw wide ok, hwrites.2]
  others := by
    intro p c _ hothers
    rw [contents_run_snoc hw wide ok]
    cases heffect : (start.run p).effect? c with
    | none => rfl
    | some entry =>
      obtain ⟨r, hwrites⟩ := exists_writes_of_effect? heffect
      exact absurd hwrites (hothers r entry)
  puts := by
    intro c r key value reply answered
    obtain ⟨p, _, _, _, hreply, _⟩ := exists_answer hw wide ok fresh answered
    have written : (start.run schedule).HasWritten c r (key, value) := by
      obtain ⟨client, hclient, hr⟩ := answered
      exact ⟨client, hclient, .inl ⟨reply, hr⟩⟩
    constructor
    · cases reply with
      | stored => rfl
      | found value => cases hreply
    · obtain ⟨q, hq, hwrites⟩ := (exists_writes_iff hw wide ok fresh).2 written
      refine ⟨q, ⟨hq, hwrites⟩, ?_⟩
      rintro q' ⟨hq', hwrites'⟩
      exact writes_unique hw wide ok fresh hq' hq hwrites' hwrites
  once := fun c r entry other p q hp hq first second =>
    writes_unique hw wide ok fresh hp hq first second
  gets := by
    intro c r key reply answered
    obtain ⟨p, hp, serves, given, hreply, heffect⟩ := exists_answer hw wide ok fresh answered
    refine ⟨p, hp, serves, given, ?_⟩
    cases reply with
    | stored => cases hreply
    | found value =>
      -- The step that answers a get writes nothing, so the map is the same before and after it.
      have hsame : (start.run (p ++ [c])).tree.contents = (start.run p).tree.contents := by
        rw [contents_run_snoc hw wide ok, heffect]
      have sound := (ok.run wide (p ++ [c])).wellformed.sound
      rw [← hsame]
      congr 1
      apply Option.ext
      intro v
      rw [Tree.contents_eq_some_iff sound]
      exact hreply v
  requests := requests_run wide ok
  counts := by
    intro idle
    have hcounted := counted.run hw wide ok schedule
    have hentries := hcounted.entries
    have hnodes := hcounted.nodes
    rw [owed_of_idle idle] at hentries hnodes
    exact ⟨hentries.symm, hnodes.symm⟩

end Run

/-- Puts and gets are linearizable, for any number of clients and any order of their accesses. -/
theorem run_linearizable (hw : 0 < w) (wide : w < 2 ^ 29) (width : Nat)
    (requests : List (List (Request n V))) (schedule : List Nat) :
    (ofRequests (Tree.empty width : Tree w n V) requests).Linearizes schedule :=
  linearizes hw wide (ok_ofRequests width requests) (isFresh_ofRequests _ requests)
    (counted_ofRequests width requests) schedule

/-- Two clients begin together; the second one loses the lock, tries again and reads its value. -/
theorem run_linearizable_race :
    let start := ofRequests (Tree.empty 8 : Tree 1 1 Nat)
      [[.put ⟨#v[5]⟩ 1], [.put ⟨#v[5]⟩ 2, .get ⟨#v[5]⟩]]
    let schedule := (List.range 80).map (· % 2)
    start.Linearizes schedule ∧
      (start.run schedule).Answered 0 0 (.put ⟨#v[5]⟩ 1) .stored ∧
      (start.run schedule).Answered 1 0 (.put ⟨#v[5]⟩ 2) .stored ∧
      (start.run schedule).Answered 1 1 (.get ⟨#v[5]⟩) (.found (some 2)) :=
  ⟨run_linearizable (by decide) (by decide) 8 _ _, ⟨_, rfl, rfl⟩, ⟨_, rfl, rfl⟩, ⟨_, rfl, rfl⟩⟩

end System

end FanoutIndex
