import FanoutIndex.Proofs.Protocol.Spending

/-!
# What searches cost

A search scans a node again, or starts again at the root, only where an event happened after it
last looked. Each part of a search that returned is followed here through its own calls, with the
retries among them and the events that paid for these.
-/

namespace FanoutIndex

variable {w n : Nat} {V : Type}

/-- The answer makes an operation try again. -/
def Call.isRefusal : Call V → Bool
  | .hasChanged _ _ answer => answer
  | .tryLock _ answer => !answer
  | .hasChangedLocked _ _ answer => answer
  | _ => false

namespace Protocol

namespace Walk

def rescans (walk : Walk) : Nat := (walk.visits.map fun visit => visit.stale.length).sum

theorem calls_last (visit : Visit) :
    (Walk.calls ⟨[], visit⟩ : List (Call V)) = visit.calls := List.append_nil _

theorem rescans_under (visit : Visit) (walk : Walk) :
    (walk.under visit).rescans = visit.stale.length + walk.rescans := rfl

theorem rescans_eq_zero_iff {walk : Walk} :
    walk.rescans = 0 ↔ ∀ visit ∈ walk.visits, visit.stale = [] := by
  simp [rescans, List.sum_eq_zero_iff]

theorem length_nodes (walk : Walk) : walk.nodes.length = walk.above.length + 1 := by
  simp [nodes, visits]

end Walk

/-- The scans that are made again and the new starts at the root. -/
def retries (failed : List Attempt) (walk : Walk) : Nat :=
  (failed.map fun attempt => attempt.walk.rescans + 1).sum + walk.rescans

theorem retries_nil (walk : Walk) : retries [] walk = walk.rescans := Nat.zero_add _

theorem retries_cons (attempt : Attempt) (failed : List Attempt) (walk : Walk) :
    retries (attempt :: failed) walk = attempt.walk.rescans + 1 + retries failed walk := by
  rw [retries, List.map_cons, List.sum_cons, Nat.add_assoc]
  rfl

/-- The calls of a writer that ends with a lock: attempts that it gave up, and the last walk. -/
def lockedCalls (failed : List Attempt) (walk : Walk) : List (Call V) :=
  failed.flatMap Attempt.calls ++ (walk.calls ++ lockCalls walk.last.node walk.last.token)

theorem putCalls_eq (failed : List Attempt) (walk : Walk) (place : Place w) :
    (putCalls failed walk place : List (Call V)) =
      lockedCalls failed walk ++ writeCalls walk.last.node walk.last.token place := by
  simp only [putCalls, lockedCalls, List.append_assoc]

section Refusals

variable {node : Nat} {token : Token}

theorem refusals_visit (visit : Visit) :
    (visit.calls : List (Call V)).countP Call.isRefusal = visit.stale.length := by
  have hstale : ((visit.stale.flatMap (scanCalls visit.node true) : List (Call V)).countP
      Call.isRefusal) = visit.stale.length := by
    induction visit.stale with
    | nil => rfl
    | cons token rest ih =>
      rw [List.flatMap_cons, List.countP_append, ih, List.length_cons, Nat.add_comm]
      rfl
  rw [Visit.calls, List.countP_append, hstale]
  rfl

theorem refusals_walk (walk : Walk) :
    (walk.calls : List (Call V)).countP Call.isRefusal = walk.rescans := by
  rw [Walk.calls, List.countP_flatMap, Walk.rescans]
  congr 2
  funext visit
  exact refusals_visit visit

theorem refusals_retreat (retreat : Retreat) :
    (retreat.calls node token : List (Call V)).countP Call.isRefusal = 1 := by
  cases retreat <;> rfl

theorem refusals_write (place : Place w) :
    (writeCalls node token place : List (Call V)).countP Call.isRefusal = 0 := by
  cases place <;> rfl

/-- Each retry is made because of one answer. -/
theorem refusals_locked (failed : List Attempt) (walk : Walk) :
    (lockedCalls failed walk : List (Call V)).countP Call.isRefusal = retries failed walk := by
  induction failed with
  | nil =>
    rw [lockedCalls, List.flatMap_nil, List.nil_append, List.countP_append, refusals_walk,
      retries_nil]
    rfl
  | cons attempt rest ih =>
    rw [lockedCalls, List.flatMap_cons, List.append_assoc, List.countP_append, ← lockedCalls, ih,
      Attempt.calls, List.countP_append, refusals_walk, refusals_retreat, retries_cons]

end Refusals

def StartAtRoot (failed : List Attempt) (walk : Walk) : Prop :=
  (∀ attempt ∈ failed, attempt.walk.nodes.head? = some root) ∧ walk.nodes.head? = some root

end Protocol

namespace Operation

open Run Protocol

variable {react : Reaction w n V} {i d : Nat} {run after : Run w n V} {token : Token} {key : Key n}

section Searches

theorem spends_scan (fair : Fair react) {rescans : Nat} {found : Route w}
    (h : exec (scan react key i rescans) run = some (.ok (found, token), after)) :
    ∃ stale, run.Spends after (Visit.calls ⟨i, stale, token⟩) stale.length ∧
      (after.tree.node i).version.stable? = some token ∧
      (run.Undisturbed after → after.tree = run.tree ∧ found = (run.tree.node i).route key) := by
  induction rescans generalizing run with
  | zero => cases h
  | succ rescans ih =>
    rw [scan] at h
    obtain ⟨word, mid, hstable, h⟩ := exec_bind_eq_ok h
    obtain ⟨hfirst, hcurrent, hcalm⟩ := spends_stable fair hstable
    rw [exec_bind_ok (exec_node mid i)] at h
    obtain ⟨answer, asked, hasked, h⟩ := exec_bind_eq_ok h
    obtain ⟨hsecond, hsame, hcalm'⟩ := spends_hasChanged fair hasked hcurrent
    have hboth := hfirst.trans hsecond
    cases answer with
    | true =>
      obtain ⟨stale, hrest, hlast, _⟩ := ih h
      have hall := hboth.trans hrest
      refine ⟨word :: stale, ⟨hall.trace, ?_⟩, hlast, fun calm => ?_⟩
      · have hpaid := hall.paid
        rw [Bool.toNat_true] at hpaid
        rw [List.length_cons]
        omega
      · have hzero := hall.retries_eq_zero calm
        rw [Bool.toNat_true] at hzero
        omega
    | false =>
      cases h
      refine ⟨[], hboth, hsame rfl, fun calm => ?_⟩
      obtain ⟨calm₁, calm₂⟩ := (hfirst.undisturbed_iff hsecond).1 calm
      rw [hcalm' calm₂, hcalm calm₁]
      exact ⟨rfl, rfl⟩

theorem spends_route (fair : Fair react) {found : Route w}
    (h : exec (route react key i) run = some (.ok (found, token), after)) :
    ∃ stale, run.Spends after (Visit.calls ⟨i, stale, token⟩) stale.length ∧
      (after.tree.node i).version.stable? = some token ∧
      (run.Undisturbed after → after.tree = run.tree ∧ found = (run.tree.node i).route key) := by
  rw [route, exec_bind_ok (exec_eventsLeft run)] at h
  exact spends_scan fair h

theorem spends_findFrom (fair : Fair react) {hops e : Nat} {value : Option V}
    (h : exec (findFrom react key hops i d) run = some (.ok (value, e), after)) :
    ∃ walk : Walk, walk.nodes.head? = some i ∧ e = d + walk.above.length ∧
      run.Spends after walk.calls walk.rescans ∧
      (run.Undisturbed after → walk.nodes = run.tree.trailFrom key i) := by
  induction hops generalizing run i d with
  | zero => cases h
  | succ hops ih =>
    have hwhole := h
    rw [findFrom] at hwhole
    obtain ⟨⟨found, word⟩, mid, hroute, _⟩ := exec_bind_eq_ok hwhole
    obtain ⟨stale, hvisit, _, hcalm⟩ := spends_route fair hroute
    cases hturn : found.turn with
    | here place =>
      cases (exec_findFrom_here hroute hturn).symm.trans h
      refine ⟨⟨[], ⟨i, stale, word⟩⟩, rfl, rfl, ?_, fun calm => ?_⟩
      · rw [Walk.calls_last]
        exact hvisit
      · rw [(hcalm calm).2] at hturn
        rw [(Tree.trailFrom_of_here hturn).1]
        rfl
    | down child =>
      rw [exec_findFrom_down hroute hturn] at h
      obtain ⟨walk, hhead, rfl, hwalk, htrail⟩ := ih h
      refine ⟨walk.under ⟨i, stale, word⟩, rfl, ?_, ?_, fun calm => ?_⟩
      · rw [Walk.under, List.length_cons]
        omega
      · rw [Walk.calls_under, Walk.rescans_under]
        exact hvisit.trans hwalk
      · obtain ⟨calm₁, calm₂⟩ := (hvisit.undisturbed_iff hwalk).1 calm
        obtain ⟨htree, rfl⟩ := hcalm calm₁
        rw [Walk.nodes_under, htrail calm₂, htree, (Tree.trailFrom_of_down hturn).1]

/-- A node is not locked at the cost of an event, or it is locked as it was when the token was
taken. -/
theorem spends_lockUnchanged (fair : Fair react) {lock : Option Lock}
    (h : exec (lockUnchanged react i token) run = some (.ok lock, after))
    (current : (run.tree.node i).version.stable? = some token) :
    (lock = none ∧ ∃ retreat : Retreat, run.Spends after (retreat.calls i token) 1) ∨
      (lock = some ⟨i⟩ ∧ run.Spends after (lockCalls i token) 0 ∧
        (after.tree.node i).version.hasChangedLocked token = false) := by
  rw [lockUnchanged] at h
  obtain ⟨answer, asked, hasked, h⟩ := exec_bind_eq_ok h
  obtain ⟨hfirst, hsame, _⟩ := spends_hasChanged fair hasked current
  cases answer with
  | true =>
    cases h
    exact .inl ⟨rfl, .changed, hfirst⟩
  | false =>
    simp only [Bool.false_eq_true, if_false] at h
    obtain ⟨taken, mid, htry, h⟩ := exec_bind_eq_ok h
    rcases spends_tryLock fair htry (hsame rfl) with ⟨rfl, hsecond⟩ | ⟨rfl, hsecond, hheld⟩
    · cases h
      exact .inl ⟨rfl, .refused, hfirst.trans hsecond⟩
    have hboth := hfirst.trans hsecond
    obtain ⟨result, confirmed, hconfirm, h⟩ := exec_bind_eq_ok h
    have hconfirm := exec_outcome_eq_ok hconfirm
    cases result with
    | error fault =>
      obtain ⟨_, _, _, h⟩ := exec_bind_eq_ok h
      cases h
    | ok answer =>
      obtain ⟨hthird, hkept, hcalm⟩ := spends_hasChangedLocked fair hconfirm
      have hall := hboth.trans hthird
      cases answer with
      | false =>
        cases h
        exact .inr ⟨rfl, hall, hkept rfl⟩
      | true =>
        -- The lock was taken of a version that had changed, or the answer was forced.
        obtain ⟨_, released, hunlock, h⟩ := exec_bind_eq_ok h
        obtain ⟨version, hlast⟩ := spends_unlock hunlock
        cases h
        have hspent : ¬run.Undisturbed confirmed := fun calm => by
          obtain ⟨calm₁, calm₃⟩ := (hboth.undisturbed_iff hthird).1 calm
          obtain ⟨_, calm₂⟩ := (hfirst.undisturbed_iff hsecond).1 calm₁
          have hanswer := hcalm calm₃
          rw [hheld calm₂] at hanswer
          cases hanswer
        exact .inl ⟨rfl, .late version, (hall.retried hspent).trans hlast⟩

/-- An attempt is given up at the cost of one event more than it scans again. -/
theorem spends_descendFrom (fair : Fair react) {hops : Nat} {answer : Option (Target w)}
    (h : exec (descendFrom react key hops i d) run = some (.ok answer, after)) :
    ∃ walk : Walk, walk.nodes.head? = some i ∧
      ((answer = none ∧ ∃ retreat : Retreat,
          run.Spends after (Attempt.calls ⟨walk, retreat⟩) (walk.rescans + 1)) ∨
        ∃ place, answer = some ⟨⟨walk.last.node⟩, place, d + walk.above.length⟩ ∧
          run.Spends after (walk.calls ++ lockCalls walk.last.node walk.last.token) walk.rescans ∧
          (after.tree.node walk.last.node).version.hasChangedLocked walk.last.token = false ∧
          (run.Undisturbed after → walk.nodes = run.tree.trailFrom key i)) := by
  induction hops generalizing run i d with
  | zero => cases h
  | succ hops ih =>
    rw [descendFrom] at h
    obtain ⟨⟨found, word⟩, mid, hroute, h⟩ := exec_bind_eq_ok h
    obtain ⟨stale, hvisit, hcurrent, hcalm⟩ := spends_route fair hroute
    cases hturn : found.turn with
    | here place =>
      simp only [hturn] at h
      obtain ⟨lock, locked, hlock, h⟩ := exec_bind_eq_ok h
      cases h
      refine ⟨⟨[], ⟨i, stale, word⟩⟩, rfl, ?_⟩
      rcases spends_lockUnchanged fair hlock hcurrent with
        ⟨rfl, retreat, hretreat⟩ | ⟨rfl, hlocked, hheld⟩
      · refine .inl ⟨rfl, retreat, ?_⟩
        rw [Attempt.calls, Walk.calls_last]
        exact hvisit.trans hretreat
      · refine .inr ⟨place, rfl, ?_, hheld, fun calm => ?_⟩
        · rw [Walk.calls_last]
          exact hvisit.trans hlocked
        · obtain ⟨_, rfl⟩ := hcalm ((hvisit.undisturbed_iff hlocked).1 calm).1
          rw [(Tree.trailFrom_of_here hturn).1]
          rfl
    | down child =>
      simp only [hturn] at h
      obtain ⟨walk, _, hcases⟩ := ih h
      refine ⟨walk.under ⟨i, stale, word⟩, rfl, ?_⟩
      rcases hcases with ⟨rfl, retreat, hretreat⟩ | ⟨place, rfl, hlocked, hheld, htrail⟩
      · refine .inl ⟨rfl, retreat, ?_⟩
        rw [Attempt.calls, Walk.calls_under, Walk.rescans_under, List.append_assoc]
        exact hvisit.trans hretreat
      · refine .inr ⟨place, ?_, ?_, hheld, fun calm => ?_⟩
        · rw [Walk.under, List.length_cons, Nat.add_comm walk.above.length, ← Nat.add_assoc]
        · rw [Walk.calls_under, Walk.rescans_under, List.append_assoc]
          exact hvisit.trans hlocked
        · obtain ⟨calm₁, calm₂⟩ := (hvisit.undisturbed_iff hlocked).1 calm
          obtain ⟨htree, rfl⟩ := hcalm calm₁
          rw [Walk.nodes_under, htrail calm₂, htree, (Tree.trailFrom_of_down hturn).1]

/-- A writer starts again at the cost of an event, and nothing is left of the attempts before. -/
theorem spends_attempt (fair : Fair react) {restarts : Nat} {target : Target w}
    (h : exec (attempt react key restarts) run = some (.ok target, after)) :
    ∃ (failed : List Attempt) (walk : Walk) (place : Place w),
      target = ⟨⟨walk.last.node⟩, place, walk.nodes.length⟩ ∧ StartAtRoot failed walk ∧
      run.Spends after (lockedCalls failed walk) (retries failed walk) ∧
      (after.tree.node walk.last.node).version.hasChangedLocked walk.last.token = false ∧
      (run.Undisturbed after → walk.nodes = run.tree.trail key) := by
  induction restarts generalizing run with
  | zero => cases h
  | succ restarts ih =>
    rw [attempt, exec_bind_ok (exec_hopLimit run)] at h
    obtain ⟨answer, mid, hdescend, h⟩ := exec_bind_eq_ok h
    obtain ⟨walk, hhead, ⟨rfl, retreat, hretreat⟩ | ⟨place, rfl, hlocked, hheld, htrail⟩⟩ :=
      spends_descendFrom fair hdescend
    · obtain ⟨failed, last, place, htarget, hstart, hrest, hheld, _⟩ := ih h
      have hall := hretreat.trans hrest
      refine ⟨⟨walk, retreat⟩ :: failed, last, place, htarget, ⟨?_, hstart.2⟩, ?_, hheld,
        fun calm => ?_⟩
      · simpa [hhead] using hstart.1
      · rw [lockedCalls, List.flatMap_cons, List.append_assoc, retries_cons]
        exact hall
      · have hzero := hall.retries_eq_zero calm
        omega
    · cases h
      refine ⟨[], walk, place, ?_, ⟨fun _ h => absurd h List.not_mem_nil, hhead⟩, ?_, hheld, htrail⟩
      · rw [Walk.length_nodes, Nat.add_comm]
      · rw [retries_nil]
        exact hlocked

theorem spends_findLocked (fair : Fair react) {target : Target w}
    (h : exec (findLocked react key) run = some (.ok target, after)) :
    ∃ (failed : List Attempt) (walk : Walk) (place : Place w),
      target = ⟨⟨walk.last.node⟩, place, walk.nodes.length⟩ ∧ StartAtRoot failed walk ∧
      run.Spends after (lockedCalls failed walk) (retries failed walk) ∧
      (after.tree.node walk.last.node).version.hasChangedLocked walk.last.token = false ∧
      (run.Undisturbed after → walk.nodes = run.tree.trail key) := by
  rw [findLocked, exec_bind_ok (exec_eventsLeft run)] at h
  exact spends_attempt fair h

theorem spends_getWith (fair : Fair react) {bytes : Bytes} {value : Option V}
    (h : exec (getWith react bytes .own) run = some (.ok value, after)) :
    ∃ (key : Key n) (walk : Walk), run.tree.encode bytes = .ok key ∧ StartAtRoot [] walk ∧
      run.Spends after walk.calls walk.rescans ∧
      (run.Undisturbed after → walk.nodes = run.tree.trail key) := by
  rw [getWith, checkGuard, exec_bind_ok (exec_pure run ())] at h
  obtain ⟨key, mid, hencode, h⟩ := exec_bind_eq_ok h
  obtain ⟨hkey, rfl⟩ := exec_encode_eq_ok hencode
  obtain ⟨⟨found, e⟩, last, hfind, h⟩ := exec_bind_eq_ok h
  cases h
  rw [find, exec_bind_ok (exec_hopLimit run)] at hfind
  obtain ⟨walk, hhead, _, hwalk, htrail⟩ := spends_findFrom fair hfind
  exact ⟨key, walk, hkey, ⟨fun _ h => absurd h List.not_mem_nil, hhead⟩, hwalk, htrail⟩

end Searches

end Operation

end FanoutIndex
