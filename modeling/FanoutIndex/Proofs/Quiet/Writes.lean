import FanoutIndex.Proofs.Quiet.Readers
import FanoutIndex.Proofs.Quiet.Shelter

namespace FanoutIndex

variable {w n : Nat} {V α : Type}

namespace Run

variable {held : Option Lock} {run after : Run w n V} {i : Nat}

/-- A command can be run under a lock that is held, or under none. -/
structure Serves (held : Option Lock) (run : Run w n V) : Prop where
  still : run.script = []
  size : 0 < run.tree.nodes.size
  outermost : held = none → run.tree.AtRest
  locked : ∀ i, held = some ⟨i⟩ → (run.tree.node i).version.isLocked = true

theorem Serves.next (serves : run.Serves held) (still : after.script = [])
    (shelters : run.tree.Shelters held after.tree) : after.Serves held where
  still := still
  size := serves.size.trans_le shelters.size
  outermost h := by
    subst h
    exact shelters.atRest (serves.outermost rfl)
  locked i h := shelters.own i h (serves.locked i h)

theorem Serves.inside (serves : run.Serves held) (hi : i < run.tree.nodes.size)
    (rest : (run.tree.node i).version.isBusy = false) (calls : List (Call V)) :
    ((run.tells calls).locked i).Serves (some ⟨i⟩) where
  still := (script_tells run calls).trans serves.still
  size := by
    rw [tree_locked, tree_tells, Tree.size_setVersion]
    exact serves.size
  outermost h := by cases h
  locked j h := by
    cases h
    rw [tree_locked, tree_tells, Tree.version_setVersion hi]
    exact Version.isLocked_locked rest

theorem serves_quiet {tree : Tree w n V} (settled : tree.Settled) : (quiet tree).Serves none where
  still := rfl
  size := settled.size
  outermost _ := settled.rest
  locked _ h := by cases h

theorem Serves.lt_size (serves : run.Serves held) (h : held = some ⟨i⟩) :
    i < run.tree.nodes.size := by
  by_contra hlt
  have hlocked := serves.locked i h
  rw [Tree.version_of_ge (Nat.le_of_not_lt hlt)] at hlocked
  cases hlocked

end Run

namespace Operation

open Run

/-- An operation ends, and keeps the locks of others. -/
structure Keeps (held : Option Lock) (body : Operation w n V α) (run : Run w n V)
    (result : Except Fault α) (after : Run w n V) : Prop where
  ends : exec body run = some (result, after)
  still : after.script = []
  shelters : run.tree.Shelters held after.tree

/-- An operation ends, keeps the locks of others, and changes nothing in a fault. -/
def Harmless (held : Option Lock) (body : Operation w n V α) (run : Run w n V) : Prop :=
  ∃ result after, Keeps held body run result after ∧
    ∀ fault, result = .error fault → run.tree.Intact after.tree

variable {held : Option Lock}

section Harmless

variable {run after : Run w n V} {body : Operation w n V α}

theorem Harmless.of_ok (h : ∃ a, exec body run = some (.ok a, after)) (still : after.script = [])
    (shelters : run.tree.Shelters held after.tree) : Harmless held body run := by
  obtain ⟨a, h⟩ := h
  exact ⟨.ok a, after, ⟨h, still, shelters⟩, fun _ h => by cases h⟩

theorem Looks.harmless (looks : Looks body run) (still : run.script = []) :
    Harmless held body run := by
  obtain ⟨result, calls, h⟩ := looks
  refine ⟨result, run.tells calls, ⟨h, ?_, ?_⟩, fun fault _ => ?_⟩
  · rw [script_tells, still]
  · rw [tree_tells]
    exact .refl _
  · rw [tree_tells]
    exact .refl _

theorem Looks.then_harmless {β : Type} {next : α → Operation w n V β} (looks : Looks body run)
    (still : run.script = [])
    (second : ∀ a (calls : List (Call V)), exec body run = some (.ok a, run.tells calls) →
      Harmless held (next a) (run.tells calls)) : Harmless held (body >>= next) run := by
  obtain ⟨result, calls, h⟩ := looks
  cases result with
  | error fault =>
    have hbind : Looks (body >>= next) run := ⟨.error fault, calls, exec_bind_error h⟩
    exact hbind.harmless still
  | ok a =>
    obtain ⟨result, after, ⟨hends, hstill, hshelters⟩, hfault⟩ := second a calls h
    rw [tree_tells] at hshelters hfault
    exact ⟨result, after, ⟨(exec_bind_ok h).trans hends, hstill, hshelters⟩, hfault⟩

end Harmless

section Puts

variable {run : Run w n V} {bytes : Bytes} {guard : GuardOrigin}

theorem exec_put_cases (serves : run.Serves held) (free : ¬(guard = .own ∧ run.tree.Bars bytes))
    (value : V) :
    (∃ fault, exec (put bytes value guard) run = some (.error fault, run) ∧
      (guard = .own → run.tree.encode bytes = .error fault)) ∨
    ∃ key after, run.tree.encode bytes = .ok key ∧ after.tree = run.tree.insert key value ∧
      Keeps held (put bytes value guard) run (.ok ()) after := by
  cases guard with
  | foreign => exact .inl ⟨_, exec_put_foreign run bytes value, fun h => by cases h⟩
  | own =>
    cases h : run.tree.encode bytes with
    | error fault => exact .inl ⟨fault, exec_put_refused h value, fun _ => rfl⟩
    | ok key =>
      have clear := Tree.clear_of_not_bars (fun barred => free ⟨rfl, barred⟩) h
      refine .inr ⟨key, _, rfl, rfl, exec_put_still run serves.still serves.size h clear value,
        ?_, ?_⟩
      · exact (script_tells run _).trans serves.still
      · exact Tree.shelters_insert serves.size (clear _ (run.tree.target_mem_trail key)) value

theorem exec_puts_cases (key : α → Bytes) (value : α → V) (guard : GuardOrigin) (items : List α)
    (serves : run.Serves held)
    (free : ¬(guard = .own ∧ run.tree.BarsOne (items.map fun a => (key a, value a)))) :
    ∃ result after, Keeps held (items.forM fun a => put (key a) (value a) guard) run result after ∧
      ∀ fault, result = .error fault → ∃ done a rest, items = done ++ a :: rest ∧
        exec (done.forM fun a => put (key a) (value a) guard) run = some (.ok (), after) ∧
        exec (put (key a) (value a) guard) after = some (.error fault, after) ∧
        (guard = .own → run.tree.encode (key a) = .error fault) := by
  -- Puts do not change the width of keys, so what the later tree refuses was refused before.
  induction items generalizing run with
  | nil => exact ⟨.ok (), run, ⟨rfl, serves.still, .refl _⟩, fun _ h => by cases h⟩
  | cons a rest ih =>
    rcases exec_put_cases serves (fun h => free ⟨h.1, .inl h.2⟩) (value a) with
      ⟨fault, hput, hrefused⟩ | ⟨k, mid, haccepted, htree, hput⟩
    · refine ⟨.error fault, run, ⟨exec_bind_error hput, serves.still, .refl _⟩, fun _ h => ?_⟩
      obtain rfl := Except.error.inj h
      exact ⟨[], a, rest, rfl, rfl, hput, hrefused⟩
    · obtain ⟨result, after, hrest, hfault⟩ := ih (serves.next hput.still hput.shelters)
        fun h => free ⟨h.1, .inr ⟨k, haccepted, htree ▸ h.2⟩⟩
      refine ⟨result, after, ⟨(exec_bind_ok hput.ends).trans hrest.ends, hrest.still,
        hput.shelters.trans hrest.shelters⟩, fun fault h => ?_⟩
      obtain ⟨done, b, others, rfl, hdone, hb, hrefused⟩ := hfault fault h
      refine ⟨a :: done, b, others, rfl, (exec_bind_ok hput.ends).trans hdone, hb, fun hguard => ?_⟩
      have hwidth : mid.tree.keyWidth = run.tree.keyWidth := by rw [htree, Tree.keyWidth_insert]
      have h := hrefused hguard
      rwa [Tree.encode, hwidth] at h

end Puts

section Writes

variable {run : Run w n String} {lock : Lock} {i : Nat} {path : Option Path}

theorem harmless_atPath {answer : Nat → Operation w n String (Answer w)} {path : Path}
    (serves : run.Serves held)
    (each : ∀ i, run.Ends path i → i < run.tree.nodes.size → Harmless held (answer i) run) :
    Harmless held (atPath path answer) run := by
  rcases exec_atPath_cases serves.size path answer with ⟨result, hnone⟩ | ⟨i, ends, hi, hsome⟩
  · exact (Looks.of_exec hnone).harmless serves.still
  · obtain ⟨result, after, hanswer, hfault⟩ := each i ends hi
    exact ⟨result, after, ⟨hsome.trans hanswer.ends, hanswer.still, hanswer.shelters⟩, hfault⟩

theorem harmless_atPathOr {answer : Nat → Operation w n String (Answer w)}
    (serves : run.Serves (some lock))
    (each : ∀ i < run.tree.nodes.size, Harmless (some lock) (answer i) run) :
    Harmless (some lock) (atPathOr lock path answer) run := by
  cases path with
  | none => exact each lock.node (serves.lt_size rfl)
  | some path => exact harmless_atPath serves fun i _ => each i

theorem harmless_withHeld {answer : Lock → Operation w n String (Answer w)}
    (serves : run.Serves held)
    (each : ∀ lock, run.Serves (some lock) → Harmless (some lock) (answer lock) run) :
    Harmless held (withHeld held answer) run := by
  cases held with
  | none => exact (looks_pure Answer.noLock).harmless serves.still
  | some lock => exact each lock serves

theorem harmless_mark (serves : run.Serves held) : Harmless held (perform held .mark) run := by
  rw [perform]
  refine harmless_withHeld serves fun lock serves => ?_
  have hlocked := serves.locked lock.node rfl
  obtain ⟨marked, hmarked⟩ : ∃ marked, (run.tree.node lock.node).version.markInsert = .ok marked :=
    ⟨_, if_pos hlocked⟩
  exact .of_ok ⟨_, exec_bind_ok (exec_markInsert run hmarked)⟩ serves.still
    (Tree.shelters_setVersion (Version.isLocked_markInsert hmarked)
      (Version.isBusy_of_isLocked hlocked))

theorem exec_assign_cases (run : Run w n V) (i slot : Nat) (key : Key n) (value : V) (lock : Lock) :
    (∃ fault, exec (assign i slot key value lock) run = some (.error fault, run)) ∨
      ∃ s : Fin w, exec (assign i slot key value lock) run =
        some (.ok (), { run with tree := run.tree.assign i s key value }) := by
  rw [assign]
  split_ifs with hslot hlock
  · exact .inr ⟨⟨slot, hslot⟩, rfl⟩
  · exact .inl ⟨_, rfl⟩
  · exact .inl ⟨_, rfl⟩

theorem harmless_assign (serves : run.Serves held) (slot : Nat) (bytes : Bytes) (value : String)
    (path : Option Path) : Harmless held (perform held (.assign slot bytes value path)) run := by
  rw [perform]
  refine harmless_withHeld serves fun lock serves => harmless_atPathOr serves fun i _ => ?_
  refine (looks_ofExcept _).then_harmless serves.still fun key calls _ => ?_
  have still : (run.tells calls).script = [] := (script_tells run calls).trans serves.still
  rcases exec_assign_cases (run.tells calls) i slot key value lock with ⟨fault, h⟩ | ⟨s, h⟩
  · exact (Looks.of_exec (exec_bind_error h)).harmless still
  · exact .of_ok ⟨_, exec_bind_ok h⟩ still
      (.of_versions (Tree.size_assign s).ge (Tree.version_assign s))

theorem exec_hang_cases (run : Run w n V) (i link child : Nat) (lock : Lock) :
    (∃ fault, exec (hang i link child lock) run = some (.error fault, run)) ∨
      ∃ l : Fin (w + 1), exec (hang i link child lock) run =
        some (.ok (), { run with tree := run.tree.setLink i l child }) := by
  rw [hang]
  split_ifs with hlink hlock
  · rw [exec_bind_ok (exec_node run i)]
    split_ifs
    · exact .inl ⟨_, rfl⟩
    · exact .inr ⟨⟨link, hlink⟩, rfl⟩
  · exact .inl ⟨_, rfl⟩
  · exact .inl ⟨_, rfl⟩

/-- A node that was created to be hung is not in use if it is not hung. -/
theorem harmless_hang_new (size : 0 < run.tree.nodes.size) (still : run.script = [])
    (hi : i < run.tree.nodes.size) (link : Nat) {node : Node w n String}
    (bare : ∀ link : Fin (w + 1), node.links.get link = none) (new : node.version = .new) :
    Harmless held (do
      let child ← create node bare
      hang i link child lock
      return .word (← version lock.node).word : Operation w n String (Answer w)) run := by
  have hcreate := exec_create run node bare
  rcases exec_hang_cases { run with tree := run.tree.addNode node bare } i link
    run.tree.nodes.size lock with ⟨fault, h⟩ | ⟨l, h⟩
  · refine ⟨.error fault, _, ⟨(exec_bind_ok hcreate).trans (exec_bind_error h), still, ?_⟩,
      fun _ _ => Tree.intact_addNode size node bare⟩
    exact .of_versions (Tree.intact_addNode size node bare).size (Tree.version_addNode bare new)
  · have younger := run.tree.younger_addNode node bare hi
    refine .of_ok ⟨_, (exec_bind_ok hcreate).trans (exec_bind_ok h)⟩ still
      (.of_versions ?_ fun j => ?_)
    · rw [Tree.size_setLink younger]
      exact younger.2.le
    · rw [Tree.version_setLink younger, Tree.version_addNode bare new]

theorem harmless_hang (serves : run.Serves held) (link : Nat) (entry : Option (Bytes × String))
    (path : Option Path) : Harmless held (perform held (.hang link entry path)) run := by
  rw [perform]
  refine harmless_withHeld serves fun lock serves => harmless_atPathOr serves fun i hi => ?_
  cases entry with
  | none => exact harmless_hang_new serves.size serves.still hi link Node.links_empty rfl
  | some entry =>
    obtain ⟨bytes, value⟩ := entry
    refine (looks_ofExcept (Key.ofBytes n bytes)).then_harmless serves.still fun key calls _ => ?_
    have still : (run.tells calls).script = [] := (script_tells run calls).trans serves.still
    refine harmless_hang_new ?_ still ?_ link (Node.links_ofEntry key value) rfl
    · rw [tree_tells]
      exact serves.size
    · rwa [tree_tells]

end Writes

end Operation

end FanoutIndex
