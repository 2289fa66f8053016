import FanoutIndex.Proofs.Scripted.Calls

/-!
# Scans among events

A scan of a node is repeated until its token is confirmed. It relies on two things, whatever the
events at its calls are: a token that still is the word of the version vouches for the face of the
node, and where it is not, an event was spent. Then it ends, with the route that the node gives at
that moment.
-/

namespace FanoutIndex

variable {w n : Nat} {V : Type}

namespace Operation

/-- What a scan of a node relies on: the runs that it may meet, and what the events at a call make
of them. -/
structure Scannable (react : Reaction w n V) (i : Nat) (ready : Run w n V → Prop)
    (passes : Run w n V → Run w n V → Prop) : Prop where
  rest : ∀ run, ready run → (run.tree.node i).version.isBusy = false
  disturbed : ∀ site run, site ≠ .hasChangedLocked → ready run →
    ∃ failed after, exec (disturbed react site i) run = some (.ok failed, after) ∧
      passes run after ∧ (failed = true → after.script.length < run.script.length)
  keeps : ∀ run after, ready run → passes run after → ready after
  trans : ∀ run mid after, passes run mid → passes mid after → passes run after
  noted : ∀ run after call, passes run after → call.change? = none →
    passes run (after.noted call)
  shrinks : ∀ run after, passes run after → after.script.length ≤ run.script.length
  spent : ∀ run after, passes run after →
    (after.tree.node i).version.word ≠ (run.tree.node i).version.word →
    after.script.length < run.script.length
  vouched : ∀ run after, ready run → passes run after →
    (after.tree.node i).version.word = (run.tree.node i).version.word →
    (after.tree.node i).face = (run.tree.node i).face

namespace Scannable

variable {react : Reaction w n V} {i : Nat} {ready : Run w n V → Prop}
  {passes : Run w n V → Run w n V → Prop} {run : Run w n V} {token : Token} {key : Key n}

theorem exec_stable (s : Scannable react i ready passes) (h : ready run) :
    ∃ token after, exec (stable react i) run = some (.ok token, after) ∧ passes run after ∧
      (after.tree.node i).version.word = token := by
  obtain ⟨failed, after, hexec, hpass, _⟩ := s.disturbed .stable run (by simp) h
  have hrest := s.rest after (s.keeps run after h hpass)
  refine ⟨_, after.noted (.stable i (after.tree.node i).version.word), ?_,
    s.noted run after _ hpass rfl, rfl⟩
  rw [stable, exec_bind_ok hexec, exec_bind_ok (exec_version after i)]
  simp only [Version.stable?, hrest]
  rfl

theorem exec_hasChanged (s : Scannable react i ready passes) (h : ready run)
    (current : (run.tree.node i).version.word = token) :
    ∃ answer after, exec (hasChanged react i token) run = some (.ok answer, after) ∧
      passes run after ∧ (answer = true → after.script.length < run.script.length) ∧
      (answer = false → (after.tree.node i).version.word = token) := by
  obtain ⟨failed, after, hexec, hpass, hfailed⟩ := s.disturbed .hasChanged run (by simp) h
  obtain ⟨answer, hanswer⟩ :
    ∃ answer, answer = (failed || (after.tree.node i).version.hasChanged token) := ⟨_, rfl⟩
  refine ⟨answer, after.noted (.hasChanged i token answer), ?_, s.noted run after _ hpass rfl, ?_,
    ?_⟩
  · rw [hasChanged, exec_bind_ok hexec, exec_bind_ok (exec_version after i), hanswer]
    rfl
  · rintro rfl
    rcases Bool.or_eq_true_iff.1 hanswer.symm with hforced | hchanged
    · exact hfailed hforced
    · apply s.spent run after hpass
      rw [current]
      simpa [Version.hasChanged] using hchanged
  · rintro rfl
    exact Version.hasChanged_eq_false_iff.1 (Bool.or_eq_false_iff.1 hanswer.symm).2

/-- A scan ends with the route that the node gives at that moment. -/
theorem exec_scan (s : Scannable react i ready passes) (h : ready run) {rescans : Nat}
    (enough : run.script.length < rescans) :
    ∃ token after,
      exec (scan react key i rescans) run =
        some (.ok ((after.tree.node i).route key, token), after) ∧
      passes run after ∧ (after.tree.node i).version.word = token := by
  induction rescans generalizing run with
  | zero => omega
  | succ rescans ih =>
    obtain ⟨token, mid, hstable, hpass, htoken⟩ := s.exec_stable h
    have hmid := s.keeps run mid h hpass
    have hshrinks := s.shrinks run mid hpass
    obtain ⟨answer, after, hexec, hpass', hyes, hno⟩ := s.exec_hasChanged hmid htoken
    have hscan : exec (scan react key i (rescans + 1)) run =
        exec (if answer then scan react key i rescans
          else pure ((mid.tree.node i).route key, token)) after := by
      rw [scan, exec_bind_ok hstable, exec_bind_ok (exec_node mid i), exec_bind_ok hexec]
    have hboth := s.trans run mid after hpass hpass'
    cases answer with
    | true =>
      -- The scan is repeated with one event less, so the rescans that are left suffice.
      have hspent := hyes rfl
      obtain ⟨token', final, hexec', hpass'', htoken'⟩ :=
        ih (s.keeps mid after hmid hpass') (by omega)
      exact ⟨token', final, hscan.trans hexec', s.trans run after final hboth hpass'', htoken'⟩
    | false =>
      -- The route was read before the events of the last call, which left the face as it was.
      refine ⟨token, after, ?_, hboth, hno rfl⟩
      have hface := s.vouched mid after hmid hpass' ((hno rfl).trans htoken.symm)
      rw [hscan, ← Node.route_congr key hface]
      rfl

theorem exec_route (s : Scannable react i ready passes) (h : ready run) (key : Key n) :
    ∃ token after,
      exec (route react key i) run = some (.ok ((after.tree.node i).route key, token), after) ∧
      passes run after ∧ (after.tree.node i).version.word = token := by
  rw [route, exec_bind_ok (exec_eventsLeft run)]
  exact s.exec_scan h (Nat.lt_succ_self _)

end Scannable

end Operation

end FanoutIndex
