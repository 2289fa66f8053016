import FanoutIndex.Proofs.Concurrent.Contents
import FanoutIndex.Proofs.Concurrent.Runs

namespace FanoutIndex

variable {w n : Nat} {V : Type}

namespace Client

def requests (client : Client w n V) : List (Request n V) :=
  client.replies.toList.map (·.1) ++ (client.task.map (·.1)).toList ++ client.todo

/-- The request of this number is a put of this entry, and its write is made. -/
def HasWritten (client : Client w n V) (r : Nat) (entry : Key n × V) : Prop :=
  (∃ reply, client.replies[r]? = some (.put entry.1 entry.2, reply)) ∨
    client.replies.size = r ∧
      ∃ stage, client.task = some (.put entry.1 entry.2, stage) ∧ stage.phase ≠ .searching

variable {client : Client w n V} {request : Request n V} {stage : Stage w n V}
  {tree : Tree w n V} {entry : Key n × V} {r : Nat}

theorem exists_task_iff (task : client.task = some (request, stage)) :
    (∃ stage, client.task = some (.put entry.1 entry.2, stage) ∧ stage.phase ≠ .searching) ↔
      request = .put entry.1 entry.2 ∧ stage.phase ≠ .searching := by
  rw [task]
  constructor
  · rintro ⟨_, ⟨⟩, h⟩
    exact ⟨rfl, h⟩
  · rintro ⟨rfl, h⟩
    exact ⟨stage, rfl, h⟩

theorem hasWritten_advance {result : Progress w n V × Tree w n V}
    (task : client.task = some (request, stage)) (accounts : stage.Accounts tree request result)
    (unbroken : ∀ cause, result.1 ≠ .broken cause) :
    (client.advance request result.1).HasWritten r entry ↔ client.HasWritten r entry ∨
      client.replies.size = r ∧ request = .put entry.1 entry.2 ∧ stage.isWrite = true := by
  obtain ⟨progress, after⟩ := result
  rw [HasWritten, HasWritten, exists_task_iff task]
  cases progress with
  | next following =>
    have hnext := accounts.next following rfl
    have htask : (client.advance request (.next following)).task = some (request, following) := rfl
    rw [exists_task_iff htask, hnext]
    change (∃ reply, client.replies[r]? = _) ∨ client.replies.size = r ∧ _ ↔ _
    tauto
  | ended reply =>
    obtain ⟨hwrite, hended⟩ := accounts.ended reply rfl
    have hidle : ¬∃ stage, (client.advance request (.ended reply)).task =
        some (.put entry.1 entry.2, stage) ∧ stage.phase ≠ .searching := by
      rintro ⟨_, h, _⟩
      cases h
    change (∃ _, (client.replies.push (request, reply))[r]? = _) ∨ _ ∧ _ ↔ _
    rw [or_iff_left (fun h => hidle h.2), Array.getElem?_push, hwrite, hended]
    by_cases hr : r = client.replies.size
    · subst hr
      cases request with
      | put key value => simp [Request.value?]
      | get key => simp [Request.value?]
    · simp [hr, Ne.symm hr]
  | broken cause => exact absurd rfl (unbroken cause)

end Client

namespace System

def Serves (system : System w n V) (c r : Nat) (request : Request n V) : Prop :=
  ∃ client stage, system.clients[c]? = some client ∧ client.replies.size = r ∧
    client.task = some (request, stage)

def Answered (system : System w n V) (c r : Nat) (request : Request n V) (reply : Reply V) : Prop :=
  ∃ client, system.clients[c]? = some client ∧ client.replies[r]? = some (request, reply)

/-- The entry that the next step of a client makes visible. -/
def effect? (system : System w n V) (c : Nat) : Option (Key n × V) :=
  (system.task? c).bind fun task => task.2.effect? task.1

/-- The next step of a client makes the entry of its put of this number visible. -/
def Writes (system : System w n V) (c r : Nat) (entry : Key n × V) : Prop :=
  system.Serves c r (.put entry.1 entry.2) ∧ system.effect? c = some entry

def HasWritten (system : System w n V) (c r : Nat) (entry : Key n × V) : Prop :=
  ∃ client, system.clients[c]? = some client ∧ client.HasWritten r entry

variable {system before after : System w n V} {c d r : Nat} {client : Client w n V}
  {request : Request n V} {stage : Stage w n V} {reply : Reply V} {entry other : Key n × V}

theorem hasWritten_of_client (h : system.clients[c]? = some client) :
    system.HasWritten c r entry ↔ client.HasWritten r entry := by
  constructor
  · rintro ⟨_, hc, hwritten⟩
    obtain rfl := Option.some.inj (h.symm.trans hc)
    exact hwritten
  · exact fun hwritten => ⟨client, h, hwritten⟩

theorem serves_of_client (h : system.clients[c]? = some client)
    (task : client.task = some (request, stage)) :
    system.Serves c client.replies.size request := ⟨client, stage, h, rfl, task⟩

theorem effect?_of_client (h : system.clients[c]? = some client)
    (task : client.task = some (request, stage)) : system.effect? c = stage.effect? request := by
  rw [effect?, task?_of_client h, task]
  rfl

theorem effect?_of_idle (h : system.task? c = none) : system.effect? c = none := by
  rw [effect?, h]
  rfl

theorem writes_of_client (h : system.clients[c]? = some client)
    (task : client.task = some (request, stage)) :
    system.Writes c r entry ↔
      client.replies.size = r ∧ request = .put entry.1 entry.2 ∧ stage.isWrite = true := by
  rw [Writes, effect?_of_client h task, Stage.effect?_eq_some_iff]
  constructor
  · rintro ⟨⟨_, _, hc, hr, _⟩, hwrite, hput⟩
    obtain rfl := Option.some.inj (h.symm.trans hc)
    exact ⟨hr, hput, hwrite⟩
  · rintro ⟨rfl, rfl, hwrite⟩
    exact ⟨serves_of_client h task, hwrite, rfl⟩

theorem exists_writes_of_effect? (h : system.effect? c = some entry) :
    ∃ r, system.Writes c r entry := by
  cases hc : system.clients[c]? with
  | none =>
    rw [effect?_of_idle (by rw [task?, hc]; rfl)] at h
    cases h
  | some client =>
    cases htask : client.task with
    | none =>
      rw [effect?_of_idle ((task?_of_client hc).trans htask)] at h
      cases h
    | some task =>
      obtain ⟨request, stage⟩ := task
      rw [effect?_of_client hc htask, Stage.effect?_eq_some_iff] at h
      exact ⟨_, (writes_of_client hc htask).2 ⟨rfl, h.2, h.1⟩⟩

theorem not_writes_of_idle (h : system.task? c = none) : ¬system.Writes c r entry := by
  intro hwrites
  have heffect := hwrites.2
  rw [effect?_of_idle h] at heffect
  cases heffect

/-- A put that is about to make its write has not made it. -/
theorem Writes.not_hasWritten (h : system.Writes c r entry) : ¬system.HasWritten c r other := by
  obtain ⟨client, stage, hc, rfl, task⟩ := h.1
  rw [hasWritten_of_client hc]
  have hwrite := ((writes_of_client hc task).1 h).2.2
  rintro (⟨reply, hreply⟩ | ⟨_, theirs, htheirs, hphase⟩)
  · simp at hreply
  · obtain ⟨_, rfl⟩ := Prod.mk.inj (Option.some.inj (task.symm.trans htheirs))
    exact hphase (Stage.phase_of_isWrite hwrite)

section Moves

variable (hw : 0 < w) (wide : w < 2 ^ 29) (ok : before.Ok) (h : before.Moves d after)

include hw wide ok h

theorem Ok.contents_moves : after.tree.contents =
    match before.effect? d with
    | none => before.tree.contents
    | some entry => Function.update before.tree.contents entry.1 (some entry.2) := by
  have sound := (ok.moves wide h).wellformed.sound
  cases h with
  | rest idle => rw [effect?_of_idle idle]
  | take here idle _ tree =>
    rw [effect?_of_idle ((task?_of_client here).trans idle), tree]
  | @access _ client request stage here task tree =>
    have holds := ok.holds ((task?_of_client here).trans task)
    have accounts := Stage.accounts_step hw ok.wellformed holds
    rw [effect?_of_client here task]
    rw [tree] at sound ⊢
    cases heffect : stage.effect? request with
    | none => exact Tree.contents_congr ok.wellformed.sound sound (accounts.same heffect)
    | some entry => exact (accounts.stores _ _ heffect).contents ok.wellformed.sound sound

theorem Ok.hasWritten_moves : after.HasWritten c r entry ↔
    before.HasWritten c r entry ∨ c = d ∧ before.Writes c r entry := by
  by_cases hcd : c = d
  · subst hcd
    cases h with
    | rest idle => simp [not_writes_of_idle idle]
    | @take _ client request todo here idle next tree clients =>
      have hafter := (clients c).trans (if_pos rfl)
      rw [hasWritten_of_client hafter, hasWritten_of_client here,
        or_iff_left fun hc => not_writes_of_idle ((task?_of_client here).trans idle) hc.2]
      rw [Client.HasWritten, Client.HasWritten, Client.exists_task_iff rfl, idle]
      simp [Stage.start, Stage.phase]
    | @access _ client request stage here task tree clients =>
      have hafter := (clients c).trans (if_pos rfl)
      have holds := ok.holds ((task?_of_client here).trans task)
      have accounts := Stage.accounts_step hw ok.wellformed holds
      have follows := (Stage.keeps_step ok.wellformed wide holds).follows
      rw [hasWritten_of_client hafter, hasWritten_of_client here, writes_of_client here task,
        and_iff_right rfl]
      apply Client.hasWritten_advance task accounts
      intro cause hcause
      rw [hcause] at follows
      exact follows
  · have hsame : after.clients[c]? = before.clients[c]? := by
      cases h with
      | rest => rfl
      | take _ _ _ _ clients => exact (clients c).trans (if_neg hcd)
      | access _ _ _ clients => exact (clients c).trans (if_neg hcd)
    rw [HasWritten, HasWritten, hsame, or_iff_left fun hc => hcd hc.1]

theorem Ok.answered_moves (answered : after.Answered c r request reply) :
    before.Answered c r request reply ∨ c = d ∧ before.Serves c r request ∧
      request.IsAnswered after.tree reply ∧ before.effect? c = none := by
  obtain ⟨client, hclient, hreply⟩ := answered
  cases h with
  | rest => exact .inl ⟨client, hclient, hreply⟩
  | take here _ _ _ clients =>
    rw [clients] at hclient
    split_ifs at hclient with hcd
    · subst hcd
      cases hclient
      exact .inl ⟨_, here, hreply⟩
    · exact .inl ⟨client, hclient, hreply⟩
  | @access _ mine asked stage here task tree clients =>
    rw [clients] at hclient
    split_ifs at hclient with hcd
    · subst hcd
      have holds := ok.holds ((task?_of_client here).trans task)
      have accounts := Stage.accounts_step hw ok.wellformed holds
      have follows := (Stage.keeps_step ok.wellformed wide holds).follows
      rw [← tree] at follows
      cases hclient
      cases hprogress : (stage.step asked before.tree).1 with
      | next following =>
        rw [hprogress] at hreply
        exact .inl ⟨mine, here, hreply⟩
      | ended given =>
        rw [hprogress] at hreply follows
        have hpush : (mine.replies.push (asked, given))[r]? = some (request, reply) := hreply
        -- The reply is the last one, which this step gave, or it was there before.
        rw [Array.getElem?_push] at hpush
        split_ifs at hpush with hr
        · cases hpush
          subst hr
          refine .inr ⟨rfl, serves_of_client here task, follows, ?_⟩
          rw [effect?_of_client here task]
          exact Stage.effect?_of_not_isWrite (accounts.ended _ hprogress).1
        · exact .inl ⟨mine, here, hpush⟩
      | broken cause =>
        rw [hprogress] at follows
        cases follows
    · exact .inl ⟨client, hclient, hreply⟩

omit hw

theorem Ok.requests_moves : after.clients[c]?.map Client.requests =
    before.clients[c]?.map Client.requests := by
  cases h with
  | rest => rfl
  | take here idle next _ clients =>
    rw [clients]
    split_ifs with hcd
    · subst hcd
      rw [here]
      simp [Client.requests, idle, next]
    · rfl
  | @access _ mine asked stage here task tree clients =>
    rw [clients]
    split_ifs with hcd
    · subst hcd
      have holds := ok.holds ((task?_of_client here).trans task)
      have follows := (Stage.keeps_step ok.wellformed wide holds).follows
      rw [here]
      cases hprogress : (stage.step asked before.tree).1 with
      | next following => simp [Client.requests, Client.advance, task]
      | ended given => simp [Client.requests, Client.advance, task]
      | broken cause =>
        rw [hprogress] at follows
        cases follows
    · rfl

end Moves

end System

end FanoutIndex
